import Mathlib.Data.Set.Function
import ImageRegion.Proofs.Backing

/-!
Cutting an image into tiles and copying rows back out of them, step by step, with everything on the
way that could go wrong: a word that overflows, a difference below zero, a tile that is not there,
and a slice that leaves its array. None of it happens, copying ends, and no pixel is lost.
-/

namespace ImageRegion

inductive Slip
  | overflow (cause : Word.Overflow)
  | underflow
  | noTile (number : Nat)
  | slice (start stop : Nat)
  deriving DecidableEq

namespace Slip

def fitting : Except Word.Overflow Nat → Except Slip Nat
  | .ok n => .ok n
  | .error cause => .error (.overflow cause)

def difference (a b : Nat) : Except Slip Nat :=
  if b ≤ a then .ok (a - b) else .error .underflow

def extract (pixels : Array Pixel) (start count : Nat) : Except Slip (Array Pixel) :=
  if start + count ≤ pixels.size then .ok (pixels.extract start (start + count))
  else .error (.slice start (start + count))

def overwrite (out : Array Pixel) (start : Nat) (piece : Array Pixel) :
    Except Slip (Array Pixel) :=
  if start + piece.size ≤ out.size then
    .ok (out.extract 0 start ++ piece ++ out.extract (start + piece.size) out.size)
  else .error (.slice start (start + piece.size))

theorem fitting_product32 {a b : Nat} (h : a * b < 0x100000000) :
    fitting (Word.product32 a b) = .ok (a * b) := by
  rw [Word.product32_eq_ok_iff.mpr ⟨rfl, h⟩]
  rfl

theorem fitting_sum32 {a b : Nat} (h : a + b < 0x100000000) :
    fitting (Word.sum32 a b) = .ok (a + b) := by
  rw [Word.sum32_eq_ok_iff.mpr ⟨rfl, h⟩]
  rfl

theorem difference_of_le {a b : Nat} (h : b ≤ a) : difference a b = .ok (a - b) := if_pos h

theorem extract_of_le {pixels : Array Pixel} {start count : Nat} (h : start + count ≤ pixels.size) :
    extract pixels start count = .ok (pixels.extract start (start + count)) := if_pos h

theorem size_overwrite {out piece out' : Array Pixel} {start : Nat}
    (h : overwrite out start piece = .ok out') : out'.size = out.size := by
  unfold overwrite at h
  split at h
  · cases h
    simp only [Array.size_append, Array.size_extract]
    omega
  · cases h

theorem overwrite_eq_ok {out piece : Array Pixel} {start : Nat}
    (h : start + piece.size ≤ out.size) :
    ∃ out', overwrite out start piece = .ok out' ∧ out'.size = out.size ∧
      out'.extract 0 (start + piece.size) = out.extract 0 start ++ piece := by
  have hfront : start + piece.size = (out.extract 0 start ++ piece).size := by
    simp only [Array.size_append, Array.size_extract]
    omega
  refine ⟨_, if_pos h, size_overwrite (if_pos h), ?_⟩
  rw [hfront, Array.extract_append_left, Array.extract_size]

theorem foldlM_append {α β : Type} {l : List α} {f : Array β → α → Except Slip (Array β)}
    {g : α → Array β} (h : ∀ a ∈ l, ∀ made, f made a = .ok (made ++ g a)) (made : Array β) :
    l.foldlM f made = .ok (made ++ l.toArray.flatMap g) := by
  induction l generalizing made with
  | nil => simp [pure, Except.pure]
  | cons a l ih =>
    rw [List.foldlM_cons, h a (List.mem_cons_self ..)]
    have hrest := ih (fun b hb => h b (List.mem_cons_of_mem _ hb)) (made ++ g a)
    refine hrest.trans (congrArg Except.ok ?_)
    apply Array.toList_inj.mp
    simp

end Slip

namespace Mosaic

open Slip

def cutRow (width : Nat) (pixels : Array Pixel) (x tileWidth : Nat) (tile : Array Pixel) (y : Nat) :
    Except Slip (Array Pixel) := do
  let start ← fitting (Word.sum32 (← fitting (Word.product32 y width)) x)
  .ok (tile ++ (← extract pixels start tileWidth))

def extentFrom (tileSize extent start : Nat) : Except Slip Nat := do
  .ok (min tileSize (← difference extent start))

def cutTile (width height tileSize : Nat) (pixels : Array Pixel) (ty tx : Nat) :
    Except Slip (Array Pixel) := do
  let y ← fitting (Word.product32 ty tileSize)
  let tileHeight ← extentFrom tileSize height y
  let x ← fitting (Word.product32 tx tileSize)
  let tileWidth ← extentFrom tileSize width x
  let _ ← fitting (Word.product32 tileWidth tileHeight)
  let _ ← fitting (Word.sum32 y tileHeight)
  (List.range tileHeight).foldlM (fun tile dy => cutRow width pixels x tileWidth tile (y + dy)) #[]

def cutTiles (width height tileSize : Nat) (pixels : Array Pixel) :
    Except Slip (Array (Array Pixel)) := do
  let across := tilesAlong tileSize width
  let down := tilesAlong tileSize height
  let _ ← fitting (Word.product32 across down)
  (List.range down).foldlM (fun tiles ty =>
    (List.range across).foldlM (fun tiles tx => do
      .ok (tiles.push (← cutTile width height tileSize pixels ty tx))) tiles) #[]

def place (width tileSize : Nat) (p : Nat × Nat) : Nat × Nat :=
  (p.2 / tileSize * tilesAlong tileSize width + p.1 / tileSize,
    p.2 % tileSize * extentOf tileSize width (p.1 / tileSize) + p.1 % tileSize)

def stretch (m : Mosaic) (y x room : Nat) : Except Slip (Array Pixel) := do
  let tx := x / m.tileSize
  let column := x % m.tileSize
  let tileWidth ← extentFrom m.tileSize m.width (← fitting (Word.product32 tx m.tileSize))
  let number ← fitting (Word.sum32
    (← fitting (Word.product32 (y / m.tileSize) (tilesAlong m.tileSize m.width))) tx)
  let count := min (← difference tileWidth column) room
  let start ← fitting (Word.sum32
    (← fitting (Word.product32 (y % m.tileSize) tileWidth)) column)
  match m.tiles[number]? with
  | some tile => extract tile start count
  | none => .error (.noTile number)

/-- Fills what is left of `out` with pixels of row `y` from column `x` on, stretch by stretch. There
is no result if a stretch has no pixels: the same stretch would be copied for ever. -/
def copyFrom (m : Mosaic) (y x : Nat) (out : Array Pixel) (filled : Nat) :
    Option (Except Slip (Array Pixel)) :=
  if _hleft : filled < out.size then
    match m.stretch y x (out.size - filled) with
    | .error slip => some (.error slip)
    | .ok piece =>
      match _hwritten : overwrite out filled piece with
      | .error slip => some (.error slip)
      | .ok out =>
        match fitting (Word.sum32 x piece.size) with
        | .error slip => some (.error slip)
        | .ok x =>
          if _hempty : piece.size = 0 then none else copyFrom m y x out (filled + piece.size)
  else some (.ok out)
termination_by out.size - filled
decreasing_by
  have hsize := size_overwrite _hwritten
  omega

def readInto (m : Mosaic) (y x : Nat) (out : Array Pixel) :
    Option (Except Slip (Except Error Unit × Array Pixel)) :=
  if m.height ≤ y ∨ m.width < x + out.size then
    some (.ok (.error (.decodeFailed (.outsideTiles y x)), out))
  else (m.copyFrom y x out 0).map (·.map fun out => (.ok (), out))

section Cutting

variable {width height tileSize : Nat} {pixels : Array Pixel}

theorem extentFrom_eq_ok {tileSize extent t : Nat} (h : t * tileSize ≤ extent) :
    extentFrom tileSize extent (t * tileSize) = .ok (extentOf tileSize extent t) := by
  rw [extentFrom, difference_of_le h]
  rfl

theorem tilesAlong_mul_lt (ht : 0 < tileSize) (harea : width * height < 0x100000000) :
    tilesAlong tileSize width * tilesAlong tileSize height < 0x100000000 :=
  Nat.lt_of_le_of_lt (Nat.mul_le_mul (Word.ceilDiv_le ht) (Word.ceilDiv_le ht)) harea

theorem cutRow_eq_ok (hp : pixels.size = width * height) (harea : width * height < 0x100000000)
    {x y tileWidth : Nat} (hx : x + tileWidth ≤ width) (hy : y < height) (tile : Array Pixel) :
    cutRow width pixels x tileWidth tile y =
      .ok (tile ++ pixels.extract (y * width + x) (y * width + x + tileWidth)) := by
  have hrow := Word.row_end_le width hy
  have hstart : y * width + x < 0x100000000 := by omega
  have hend : y * width + x + tileWidth ≤ pixels.size := by omega
  simp only [cutRow, fitting_product32 (Nat.lt_of_le_of_lt (Nat.le_add_right _ _) hstart),
    fitting_sum32 hstart, extract_of_le hend, bind, Except.bind]

theorem cutTile_eq_ok (ht : 0 < tileSize) (hp : pixels.size = width * height)
    (harea : width * height < 0x100000000) {tx ty : Nat} (hx : tx < tilesAlong tileSize width)
    (hy : ty < tilesAlong tileSize height) :
    cutTile width height tileSize pixels ty tx =
      .ok (cut width height tileSize pixels tx ty) := by
  have hright := mul_add_extentOf_le ht hx
  have hbelow := mul_add_extentOf_le ht hy
  have hty : ty * tileSize < height := (Word.lt_ceilDiv_iff ht).mp hy
  have htx : tx * tileSize < width := (Word.lt_ceilDiv_iff ht).mp hx
  have hwidth : width ≤ width * height := Nat.le_mul_of_pos_right _ (by omega)
  have hheight : height ≤ width * height := Nat.le_mul_of_pos_left _ (by omega)
  have hextent : extentOf tileSize width tx * extentOf tileSize height ty ≤ width * height :=
    Nat.mul_le_mul (by omega) (by omega)
  have hrows (dy : Nat) (hdy : dy ∈ List.range (extentOf tileSize height ty))
      (tile : Array Pixel) :=
    cutRow_eq_ok hp harea hright (y := ty * tileSize + dy)
      (by have := List.mem_range.mp hdy; omega) tile
  simp only [cutTile, fitting_product32 (a := ty) (b := tileSize) (by omega),
    fitting_product32 (a := tx) (b := tileSize) (by omega), extentFrom_eq_ok hty.le,
    extentFrom_eq_ok htx.le, fitting_product32 (Nat.lt_of_le_of_lt hextent harea),
    fitting_sum32 (a := ty * tileSize) (b := extentOf tileSize height ty) (by omega), bind,
    Except.bind]
  refine (foldlM_append hrows #[]).trans ?_
  rw [Array.empty_append, List.toArray_range]
  rfl

theorem cutTiles_eq_ok (native : PixelFormat) (ht : 0 < tileSize)
    (hp : pixels.size = width * height) (harea : width * height < 0x100000000) :
    cutTiles width height tileSize pixels =
      .ok (ofPixels width height native tileSize pixels).tiles := by
  have htile (ty : Nat) (hty : ty ∈ List.range (tilesAlong tileSize height))
      (tiles : Array (Array Pixel)) :=
    foldlM_append (l := List.range (tilesAlong tileSize width))
      (f := fun tiles tx => do
        .ok (tiles.push (← cutTile width height tileSize pixels ty tx)))
      (g := fun tx => #[cut width height tileSize pixels tx ty])
      (fun tx htx tiles => by
        rw [cutTile_eq_ok ht hp harea (List.mem_range.mp htx) (List.mem_range.mp hty)]
        rfl) tiles
  unfold cutTiles
  dsimp only
  rw [fitting_product32 (tilesAlong_mul_lt ht harea)]
  refine (foldlM_append htile #[]).trans (congrArg Except.ok ?_)
  rw [Array.empty_append]
  simp only [ofPixels, List.toArray_range, ← Array.map_eq_flatMap]

theorem extract_cut (ht : 0 < tileSize) (hp : pixels.size = width * height) {x y count : Nat}
    (hx : x < width) (hy : y < height)
    (hcount : x % tileSize + count ≤ extentOf tileSize width (x / tileSize)) :
    (cut width height tileSize pixels (x / tileSize) (y / tileSize)).extract
      (y % tileSize * extentOf tileSize width (x / tileSize) + x % tileSize)
      (y % tileSize * extentOf tileSize width (x / tileSize) + x % tileSize + count) =
      pixels.extract (y * width + x) (y * width + x + count) := by
  have htx := div_lt_tilesAlong ht hx
  have hty := div_lt_tilesAlong ht hy
  have hx' : x / tileSize * tileSize + x % tileSize = x := Nat.div_add_mod' ..
  have hy' : y / tileSize * tileSize + y % tileSize = y := Nat.div_add_mod' ..
  unfold cut
  rw [Nat.add_assoc, Packing.extract_flatMap (k := extentOf tileSize width (x / tileSize)) _ _
    (fun dy hdy => size_cut_row ht hp htx hty (Array.mem_range.mp hdy))
    (by simpa using mod_lt_extentOf ht hy) hcount]
  simp only [Array.getElem_range, hy', Array.extract_extract]
  congr 1 <;> omega

theorem stretch_eq_ok (native : PixelFormat) (ht : 0 < tileSize) (hp : pixels.size = width * height)
    (harea : width * height < 0x100000000) {x y room : Nat} (hx : x < width) (hy : y < height) :
    let count := min (extentOf tileSize width (x / tileSize) - x % tileSize) room
    (ofPixels width height native tileSize pixels).stretch y x room =
      .ok (pixels.extract (y * width + x) (y * width + x + count)) := by
  intro count
  have htx := div_lt_tilesAlong ht hx
  have hty := div_lt_tilesAlong ht hy
  have hcolumn := mod_lt_extentOf ht hx
  have hright := mul_add_extentOf_le ht htx
  have hbelow := mul_add_extentOf_le ht hty
  have htile : (ofPixels width height native tileSize pixels).tiles[_]? = some _ :=
    getElem?_tiles native ht hx hy
  have hleft : x / tileSize * tileSize ≤ width := by omega
  have hwidth : width ≤ width * height := Nat.le_mul_of_pos_right _ (by omega)
  have hnumber := Word.row_end_le (tilesAlong tileSize width) hty
  have htiles := tilesAlong_mul_lt ht harea
  have hstart := Word.row_end_le (extentOf tileSize width (x / tileSize)) (mod_lt_extentOf ht hy)
  have hcells : extentOf tileSize width (x / tileSize) * extentOf tileSize height (y / tileSize) ≤
      width * height := Nat.mul_le_mul (by omega) (by omega)
  have hsize := size_cut ht hp htx hty
  rw [Nat.mul_comm] at hsize
  simp only [ofPixels] at htile
  simp only [stretch, ofPixels,
    fitting_product32 (a := x / tileSize) (b := tileSize) (by omega),
    extentFrom_eq_ok hleft,
    fitting_product32 (a := y / tileSize) (b := tilesAlong tileSize width) (by omega),
    fitting_sum32 (a := y / tileSize * tilesAlong tileSize width) (b := x / tileSize) (by omega),
    difference_of_le hcolumn.le,
    fitting_product32 (a := y % tileSize) (b := extentOf tileSize width (x / tileSize)) (by omega),
    fitting_sum32 (a := y % tileSize * extentOf tileSize width (x / tileSize)) (b := x % tileSize)
      (by omega), bind, Except.bind, htile]
  rw [extract_of_le (by omega), extract_cut ht hp hx hy (by omega)]

theorem copyFrom_eq_some (native : PixelFormat) (ht : 0 < tileSize)
    (hp : pixels.size = width * height) (harea : width * height < 0x100000000) {y : Nat}
    (hy : y < height) {x : Nat} {out : Array Pixel} {filled : Nat} (hfilled : filled ≤ out.size)
    (hx : x + (out.size - filled) ≤ width) :
    (ofPixels width height native tileSize pixels).copyFrom y x out filled =
      some (.ok (out.extract 0 filled ++
        pixels.extract (y * width + x) (y * width + x + (out.size - filled)))) := by
  -- Each stretch is at least one pixel long, so less of the row is left after it.
  induction hroom : out.size - filled using Nat.strongRecOn generalizing x out filled with
  | _ room ih =>
    rw [copyFrom]
    split
    next hleft =>
      have hxwidth : x < width := by omega
      have hrow := Word.row_end_le width hy
      have hwidth : width ≤ width * height := Nat.le_mul_of_pos_right _ (by omega)
      have hcolumn := mod_lt_extentOf ht hxwidth
      have hright := mul_add_extentOf_le ht (div_lt_tilesAlong ht hxwidth)
      obtain ⟨count, hcount⟩ :
          ∃ n, n = min (extentOf tileSize width (x / tileSize) - x % tileSize) room := ⟨_, rfl⟩
      have hsize : (pixels.extract (y * width + x) (y * width + x + count)).size = count := by
        rw [Array.size_extract]
        omega
      have hfits : filled + (pixels.extract (y * width + x) (y * width + x + count)).size ≤
          out.size := by omega
      obtain ⟨out', hwritten, hsize', hfront⟩ := overwrite_eq_ok hfits
      rw [hroom]
      simp only [stretch_eq_ok native ht hp harea hxwidth hy, ← hcount]
      split
      next slip hslip =>
        rw [hwritten] at hslip
        cases hslip
      next out'' hout =>
      obtain rfl := Except.ok.inj (hwritten.symm.trans hout)
      rw [hsize] at hfront
      rw [hsize, fitting_sum32 (by omega)]
      dsimp only
      rw [dif_neg (by omega), ih (room - count) (by omega) (by omega) (by omega) (by omega), hfront,
        Array.append_assoc, ← Nat.add_assoc, Array.extract_append_extract]
      congr 4 <;> omega
    next hfull =>
      have hnone : room = 0 := by omega
      have hall : filled = out.size := by omega
      simp [hnone, hall]

theorem eq_of_mul_add_eq {k a b a' b' : Nat} (hb : b < k) (hb' : b' < k)
    (h : a * k + b = a' * k + b') : a = a' ∧ b = b' := by
  have hquotient := congrArg (· / k) h
  have hrest := congrArg (· % k) h
  simp only [Nat.mul_add_mod', Nat.mod_eq_of_lt hb, Nat.mod_eq_of_lt hb'] at hrest
  subst hrest
  exact ⟨Nat.eq_of_mul_eq_mul_right (by omega) (Nat.add_right_cancel h), rfl⟩

theorem exists_place (ht : 0 < tileSize) {tx ty dx dy : Nat}
    (hx : tx < tilesAlong tileSize width) (hy : ty < tilesAlong tileSize height)
    (hdx : dx < extentOf tileSize width tx) (hdy : dy < extentOf tileSize height ty) :
    tx * tileSize + dx < width ∧ ty * tileSize + dy < height ∧
      place width tileSize (tx * tileSize + dx, ty * tileSize + dy) =
        (ty * tilesAlong tileSize width + tx, dy * extentOf tileSize width tx + dx) := by
  have hright := mul_add_extentOf_le ht hx
  have hbelow := mul_add_extentOf_le ht hy
  have hdx' : dx < tileSize := Nat.lt_of_lt_of_le hdx (Nat.min_le_left ..)
  have hdy' : dy < tileSize := Nat.lt_of_lt_of_le hdy (Nat.min_le_left ..)
  refine ⟨by omega, by omega, ?_⟩
  simp only [place, Nat.mul_add_mod', Nat.mod_eq_of_lt hdx', Nat.mod_eq_of_lt hdy']
  rw [Nat.mul_comm tx, Nat.mul_comm ty, Nat.mul_add_div ht, Nat.mul_add_div ht,
    Nat.div_eq_of_lt hdx', Nat.div_eq_of_lt hdy', Nat.add_zero, Nat.add_zero]

theorem bijOn_place (native : PixelFormat) (ht : 0 < tileSize)
    (hp : pixels.size = width * height) :
    Set.BijOn (place width tileSize) {p | p.1 < width ∧ p.2 < height}
      {q | ∃ tile, (ofPixels width height native tileSize pixels).tiles[q.1]? = some tile ∧
        q.2 < tile.size} := by
  refine ⟨?maps, ?injective, ?surjective⟩
  case maps =>
    rintro ⟨x, y⟩ ⟨hx : x < width, hy : y < height⟩
    refine ⟨_, getElem?_tiles native ht hx hy, ?_⟩
    have hend := Word.row_end_le (extentOf tileSize width (x / tileSize)) (mod_lt_extentOf ht hy)
    have hcolumn := mod_lt_extentOf ht hx
    rw [size_cut ht hp (div_lt_tilesAlong ht hx) (div_lt_tilesAlong ht hy), Nat.mul_comm]
    simp only [place]
    omega
  case injective =>
    rintro ⟨x, y⟩ ⟨hx, hy⟩ ⟨x', y'⟩ ⟨hx', hy'⟩ h
    obtain ⟨hnumber, hoffset⟩ := Prod.mk.inj h
    obtain ⟨hrow, hcolumn⟩ :=
      eq_of_mul_add_eq (div_lt_tilesAlong ht hx) (div_lt_tilesAlong ht hx') hnumber
    dsimp only at hrow hcolumn hoffset
    have hwithin := mod_lt_extentOf ht hx'
    rw [← hcolumn] at hoffset hwithin
    obtain ⟨hdown, hacross⟩ := eq_of_mul_add_eq (mod_lt_extentOf ht hx) hwithin hoffset
    refine Prod.ext ?_ ?_
    · rw [← Nat.div_add_mod x tileSize, hcolumn, hacross, Nat.div_add_mod]
    · rw [← Nat.div_add_mod y tileSize, hrow, hdown, Nat.div_add_mod]
  case surjective =>
    rintro ⟨number, offset⟩ ⟨tile, htile, hoffset⟩
    have hnumber : number < tilesAlong tileSize height * tilesAlong tileSize width := by
      have hsize := (Array.getElem?_eq_some_iff.mp htile).1
      rw [size_tiles] at hsize
      exact hsize
    obtain ⟨tx, ty, hx, hy, rfl⟩ : ∃ tx ty, tx < tilesAlong tileSize width ∧
        ty < tilesAlong tileSize height ∧ ty * tilesAlong tileSize width + tx = number :=
      ⟨_, _, Nat.mod_lt _ (Nat.pos_of_lt_mul_left hnumber), Nat.div_lt_of_lt_mul (by
        rwa [Nat.mul_comm]), Nat.div_add_mod' ..⟩
    have hcut : (ofPixels width height native tileSize pixels).tiles[_]? = some _ :=
      getElem?_tiles native ht ((Word.lt_ceilDiv_iff ht).mp hx) ((Word.lt_ceilDiv_iff ht).mp hy)
    rw [Nat.mul_div_cancel _ ht, Nat.mul_div_cancel _ ht] at hcut
    obtain rfl : cut width height tileSize pixels tx ty = tile :=
      Option.some.inj (hcut.symm.trans htile)
    dsimp only at hoffset
    rw [size_cut ht hp hx hy] at hoffset
    obtain ⟨hright, hbelow, hplace⟩ := exists_place ht hx hy
      (Nat.mod_lt _ (Nat.pos_of_lt_mul_left hoffset)) (Nat.div_lt_of_lt_mul (by
        rwa [Nat.mul_comm]))
    refine ⟨_, ⟨hright, hbelow⟩, hplace.trans ?_⟩
    rw [Nat.div_add_mod']

theorem readInto_eq_some (native : PixelFormat) (ht : 0 < tileSize)
    (hp : pixels.size = width * height) (harea : width * height < 0x100000000) {x y : Nat}
    {out : Array Pixel} (hx : x + out.size ≤ width) (hy : y < height) :
    (ofPixels width height native tileSize pixels).readInto y x out =
      some (.ok (.ok (), pixels.extract (y * width + x) (y * width + x + out.size))) := by
  have hcopied := copyFrom_eq_some native ht hp harea hy (Nat.zero_le out.size) hx
  rw [Array.extract_zero, Array.empty_append] at hcopied
  have hinside : ¬(height ≤ y ∨ width < x + out.size) := by omega
  have hread : (ofPixels width height native tileSize pixels).readInto y x out = _ := if_neg hinside
  rw [hread, hcopied]
  rfl

theorem readInto_outside {m : Mosaic} {x y : Nat} {out : Array Pixel}
    (h : m.height ≤ y ∨ m.width < x + out.size) :
    m.readInto y x out = some (.ok (.error (.decodeFailed (.outsideTiles y x)), out)) := if_pos h

theorem readRow_ofPixels (native : PixelFormat) (ht : 0 < tileSize)
    (hp : pixels.size = width * height) {x y count : Nat} (hx : x + count ≤ width)
    (hy : y < height) :
    (ofPixels width height native tileSize pixels).readRow y x count =
      .ok (pixels.extract (y * width + x) (y * width + x + count)) := by
  have hrow := Word.row_end_le width hy
  have hinside : ¬(height ≤ y ∨ width < x + count) := by omega
  refine (if_neg hinside).trans (congrArg Except.ok (Array.ext ?_ fun i hi hi' => ?_))
  · rw [Array.size_ofFn, Array.size_extract]
    omega
  · rw [Array.size_ofFn] at hi
    rw [Array.getElem_ofFn, Array.getElem_extract, pixelAt_ofPixels native ht hp (by omega) hy,
      Array.getD_eq_getD_getElem?, Array.getElem?_eq_getElem (by omega), Option.getD_some]
    simp only [Nat.add_assoc]

end Cutting

/-- The tiles of an image are made without a slip, and each pixel of the image is in one place of
one of them. Any stretch of a row is copied back whole, and nothing else is copied, whatever the
size of the tiles. -/
theorem tiles_lose_nothing {width height : Nat} {pixels : Array Pixel} (hwidth : 0 < width)
    (hheight : 0 < height) (harea : width * height < 0x100000000)
    (hp : pixels.size = width * height) (native : PixelFormat) {tileSize : Nat}
    (ht : 0 < tileSize) :
    let m := ofPixels width height native tileSize pixels
    (cutTiles width height tileSize pixels = .ok m.tiles ∧
      ∀ (encoding : Encoding) (s : Stream) (config : Config), s.InMemory →
        encoding.hasRandomAccess = false →
        s.content.decoded encoding = .whole width height native pixels →
        config.limits = .none → config.tileSize = tileSize →
        ∃ t event, Index.build encoding s config = .ok (.tiled m, t, event)) ∧
    (m.tiles.size = Word.ceilDiv width tileSize * Word.ceilDiv height tileSize ∧
      Set.BijOn (place width tileSize) {p | p.1 < width ∧ p.2 < height}
        {q | ∃ tile, m.tiles[q.1]? = some tile ∧ q.2 < tile.size} ∧
      ∀ x y, x < width → y < height → ∃ tile,
        m.tiles[(place width tileSize (x, y)).1]? = some tile ∧
        tile[(place width tileSize (x, y)).2]? = pixels[y * width + x]?) ∧
    (∀ x y out, x + out.size ≤ width → y < height → ∃ row,
      m.readInto y x out = some (.ok (.ok (), row)) ∧ m.readRow y x out.size = .ok row ∧
      row.size = out.size ∧ ∀ i < out.size, row[i]? = pixels[y * width + x + i]?) ∧
    (∀ x y out, ¬(x + out.size ≤ width ∧ y < height) →
      m.readInto y x out = some (.ok (.error (.decodeFailed (.outsideTiles y x)), out)) ∧
      m.readRow y x out.size = .error (.fault (.outsideTiles y x))) ∧
    ∀ tileSize', 0 < tileSize' → ∀ x y out,
      (ofPixels width height native tileSize' pixels).readInto y x out = m.readInto y x out := by
  intro m
  refine ⟨⟨cutTiles_eq_ok native ht hp harea, ?built⟩,
    ⟨?number, bijOn_place native ht hp, ?content⟩, ?inside, ?outside, ?sizes⟩
  case built =>
    rintro encoding s config hs hencoding hdecoded hlimits rfl
    exact Index.build_tiled hs hencoding hdecoded hlimits ht hwidth hheight harea
  case number => exact (size_tiles native).trans (Nat.mul_comm ..)
  case content =>
    intro x y hx hy
    exact ⟨_, getElem?_tiles native ht hx hy, getElem?_cut ht hp hx hy⟩
  case inside =>
    intro x y out hx hy
    have hrow := Word.row_end_le width hy
    refine ⟨_, readInto_eq_some native ht hp harea hx hy, readRow_ofPixels native ht hp hx hy, ?_,
      fun i hi => ?_⟩
    · rw [Array.size_extract]
      omega
    · rw [Array.getElem?_extract, if_pos (by omega)]
  case outside =>
    intro x y out h
    have houtside : m.height ≤ y ∨ m.width < x + out.size := by
      show height ≤ y ∨ width < x + out.size
      omega
    exact ⟨readInto_outside houtside, if_pos houtside⟩
  case sizes =>
    intro tileSize' ht' x y out
    by_cases h : x + out.size ≤ width ∧ y < height
    · rw [readInto_eq_some native ht' hp harea h.1 h.2, readInto_eq_some native ht hp harea h.1 h.2]
    · have houtside : height ≤ y ∨ width < x + out.size := by omega
      exact (readInto_outside houtside).trans (readInto_outside houtside).symm

theorem tiles_lose_nothing_of_six :
    let pixels : Array Pixel := #[.gray 0, .gray 1, .gray 2, .gray 3, .gray 4, .gray 5]
    (ofPixels 3 2 .rgba8 2 pixels).readInto 1 1 #[.clear, .clear] =
      some (.ok (.ok (), #[.gray 4, .gray 5])) := by
  intro pixels
  have hsize : pixels.size = 3 * 2 := rfl
  have hpositive : 0 < 2 := by decide
  obtain ⟨_, _, hinside, _⟩ :=
    tiles_lose_nothing (by decide) hpositive (by decide) hsize .rgba8 hpositive
  obtain ⟨row, hread, _, hrow, hpixels⟩ := hinside 1 1 #[.clear, .clear] (by decide) (by decide)
  have hgray : row = #[.gray 4, .gray 5] := by
    refine Array.ext_getElem? fun i => ?_
    match i with
    | 0 => exact hpixels 0 (by decide)
    | 1 => exact hpixels 1 (by decide)
    | i + 2 =>
      rw [Array.getElem?_eq_none (by rw [hrow]; exact Nat.le_add_left ..)]
      rfl
  rw [hread, hgray]

end Mosaic

end ImageRegion
