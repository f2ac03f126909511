import ImageRegion.Proofs.Image.Safety
import ImageRegion.Proofs.Sampling.Parts
import ImageRegion.Proofs.Storage

namespace ImageRegion

theorem Word.ceilDiv_mul_add {d : Nat} (hd : 0 < d) (n k : Nat) :
    ceilDiv (n * d + k) d = n + ceilDiv k d := by
  unfold ceilDiv
  rw [Nat.add_assoc, Nat.mul_comm, Nat.mul_add_div hd]

theorem Word.ceilDiv_mul {d : Nat} (hd : 0 < d) (n : Nat) : ceilDiv (n * d) d = n := by
  have h := ceilDiv_mul_add hd n 0
  have hz : ceilDiv 0 d = 0 := Nat.le_zero.mp (ceilDiv_le hd)
  rw [hz] at h
  exact h

theorem Word.ceilDiv_mono {n k d : Nat} (h : n ≤ k) : ceilDiv n d ≤ ceilDiv k d :=
  Nat.div_le_div_right (Nat.add_le_add_right h _)

theorem Packing.ofFn_add {α : Type} (f : Nat → α) (n k : Nat) :
    Array.ofFn (fun x : Fin (n + k) => f x) =
      Array.ofFn (fun x : Fin n => f x) ++ Array.ofFn (fun x : Fin k => f (x + n)) := by
  rw [Array.ofFn_add]
  congr 2
  funext x
  rw [Fin.val_natAdd, Nat.add_comm]

namespace Coding

def Repeats (k : Coding) (n : Nat) : Prop := k.format = .rgb565 → k.dither = true → 4 ∣ n

variable {k : Coding} {n : Nat}

theorem repeats_zero : k.Repeats 0 := fun _ _ => Nat.dvd_zero 4

theorem bias_add_column (h : k.dither = true → 4 ∣ n) (x y : Nat) :
    Dither.bias k.dither (n + x) y = Dither.bias k.dither x y := by
  unfold Dither.bias
  split
  next hd =>
    obtain ⟨m, rfl⟩ := h hd
    rw [Dither.threshold, Dither.threshold, Nat.mul_add_mod]
  · rfl

theorem bias_add_row (h : k.dither = true → 4 ∣ n) (x y : Nat) :
    Dither.bias k.dither x (y + n) = Dither.bias k.dither x y := by
  unfold Dither.bias
  split
  next hd =>
    obtain ⟨m, rfl⟩ := h hd
    rw [Dither.threshold, Dither.threshold, Nat.add_mul_mod_self_left]
  · rfl

theorem pixel_add_column (h : k.Repeats n) (x y : Nat) (p : Pixel) :
    k.pixel (n + x) y p = k.pixel x y p := by
  unfold pixel
  cases hf : k.format with
  | rgb565 => simp only [bias_add_column (h hf)]
  | _ => rfl

theorem pixel_add_row (h : k.Repeats n) (x y : Nat) (p : Pixel) :
    k.pixel x (y + n) p = k.pixel x y p := by
  unfold pixel
  cases hf : k.format with
  | rgb565 => simp only [bias_add_row (h hf)]
  | _ => rfl

theorem row_append {a : Array Pixel} (h : k.Repeats a.size) (y : Nat) (b : Array Pixel) :
    k.row y (a ++ b) = k.row y a ++ k.row y b := by
  unfold row
  rw [Array.zipIdx_append, Array.flatMap_append, Nat.zero_add, b.zipIdx_eq_map_add,
    Array.flatMap_map]
  simp only [pixel_add_column h]

theorem row_add (h : k.Repeats n) (y : Nat) (a : Array Pixel) : k.row (y + n) a = k.row y a := by
  unfold row
  simp only [pixel_add_row h]

end Coding

theorem Index.rowOf_within {index : Index} {s : Stream} {P : Nat → Nat → Pixel}
    (hP : index.Holds s.content P) (hsize : s.content.size ≤ 0x10000000000000000)
    {x x' count count' y : Nat} {row : Array Pixel} (h : index.rowOf s.answers x count y = .ok row)
    (hcount : 0 < count') (hx : x ≤ x') (hstop : x' + count' ≤ x + count) :
    ∃ row, index.rowOf s.answers x' count' y = .ok row := by
  cases index with
  | pnm header =>
    exact Answers.row_within hsize h (Netpbm.Header.pixelBytes_pos hP.1) hcount hx hstop
  | farbfeld header => exact Answers.row_within hsize h (by decide) hcount hx hstop
  | tiled m =>
    simp only [rowOf, Mosaic.readRow] at h ⊢
    split at h
    · cases h
    next hin => exact ⟨_, if_neg (by omega)⟩

theorem Index.rowOf_of_parts {index : Index} {s : Stream} {x count count' y : Nat}
    (hleft : ∃ row, index.rowOf s.answers x count y = .ok row)
    (hright : ∃ row, index.rowOf s.answers (x + count) count' y = .ok row) :
    ∃ row, index.rowOf s.answers x (count + count') y = .ok row := by
  cases index with
  | pnm header => exact Answers.row_of_parts hleft hright
  | farbfeld header => exact Answers.row_of_parts hleft hright
  | tiled m =>
    obtain ⟨_, hright⟩ := hright
    simp only [rowOf, Mosaic.readRow] at hright ⊢
    split at hright
    · cases hright
    next hin => exact ⟨_, if_neg (by omega)⟩

namespace Rect

variable {c : Rect} {x y : Int} {sample n : Nat}

theorem part_left (hx : x = c.left + (n * sample : Nat)) (hl : c.left < x) (hr : x < c.right)
    (hh : c.top < c.bottom) : c.Part { c with right := x } sample 0 0 :=
  ⟨.before hx hl hr, .whole hh⟩

theorem part_right (hx : x = c.left + (n * sample : Nat)) (hr : x < c.right)
    (hh : c.top < c.bottom) : c.Part { c with left := x } sample n 0 :=
  ⟨.behind hx hr, .whole hh⟩

theorem part_upper (hy : y = c.top + (n * sample : Nat)) (ht : c.top < y) (hb : y < c.bottom)
    (hw : c.left < c.right) : c.Part { c with bottom := y } sample 0 0 :=
  ⟨.whole hw, .before hy ht hb⟩

theorem part_lower (hy : y = c.top + (n * sample : Nat)) (hb : y < c.bottom)
    (hw : c.left < c.right) : c.Part { c with top := y } sample 0 n :=
  ⟨.whole hw, .behind hy hb⟩

end Rect

namespace Image

variable {im : Image} {c p : Rect} {o : Options} {P : Nat → Nat → Pixel} {i j n : Nat}

def lines (im : Image) (c : Rect) (o : Options) : Array (Array UInt8) :=
  (Array.range (im.regionOf c o).height).map
    ((o.painting (im.regionOf c o)).line (im.rows (im.regionOf c o) o))

theorem flatten_lines (im : Image) (c : Rect) (o : Options) :
    (im.lines c o).flatten = im.shown (im.regionOf c o) o := by
  unfold lines shown Painting.band
  rw [Array.flatMap_def]

def coding (im : Image) (o : Options) : Coding :=
  ⟨o.format.getD im.index.nativeFormat, o.premultiplied, o.dither⟩

def Completes (im : Image) (c : Rect) (o : Options) : Prop :=
  (o.painting (im.regionOf c o)).Paintable (im.rows (im.regionOf c o) o)

theorem reads_of_parts {x : Int} {y : Nat} (hl : c.left < x) (hr : x < c.right)
    (hpos : 0 ≤ c.left) (hleft : im.Reads { c with right := x } y)
    (hright : im.Reads { c with left := x } y) : im.Reads c y := by
  unfold Reads at hleft hright ⊢
  simp only [Index.readRow_fst] at hleft hright ⊢
  have hx : x.toNat = c.left.toNat + Rect.width { c with right := x } := by
    simp only [Rect.width]
    omega
  have hwidth : c.width =
      Rect.width { c with right := x } + Rect.width { c with left := x } := by
    simp only [Rect.width]
    omega
  rw [hx] at hright
  rw [hwidth]
  exact Index.rowOf_of_parts hleft hright

theorem height_above (im : Image) (hs : 0 < o.sampleSize) {y : Int}
    (hy : y = c.top + (n * o.sampleSize : Nat)) (ht : c.top < y) (hb : y < c.bottom) :
    (im.regionOf { c with bottom := y } o).height = n ∧
      (im.regionOf c o).height = n + (im.regionOf { c with top := y } o).height := by
  have hbefore : Rect.height { c with bottom := y } = n * o.sampleSize := by
    simp only [Rect.height]
    omega
  have hall : c.height = n * o.sampleSize + Rect.height { c with top := y } := by
    simp only [Rect.height]
    omega
  constructor
  · show Word.ceilDiv (Rect.height { c with bottom := y }) o.sampleSize = n
    rw [hbefore, Word.ceilDiv_mul hs]
  · show Word.ceilDiv c.height o.sampleSize = _
    rw [hall, Word.ceilDiv_mul_add hs]
    rfl

section

variable (hP : im.index.Holds im.feed.stream.content P)
  (hsize : im.feed.stream.content.size ≤ 0x10000000000000000) (hs : 0 < o.sampleSize)

include hP

include hsize in
theorem Reads.part (hc : im.Clamped c) (h : c.Part p o.sampleSize i j) {y : Nat}
    (hread : im.Reads c y) : im.Reads p y := by
  obtain ⟨row, hrow⟩ := hread
  rw [Index.readRow_fst] at hrow
  have hl := hc.left
  have hfirst := h.columns.begins
  have hwide := h.columns.within
  have hnonempty := h.columns.nonempty
  have hwidth : 0 < p.width := by
    simp only [Rect.width]
    omega
  have hstop : p.left.toNat + p.width ≤ c.left.toNat + c.width := by
    simp only [Rect.width]
    omega
  have hleft : c.left.toNat ≤ p.left.toNat := by omega
  obtain ⟨row', hrow'⟩ := Index.rowOf_within hP hsize hrow hwidth hleft hstop
  refine ⟨row', ?_⟩
  rw [Index.readRow_fst]
  exact hrow'

include hs

theorem completes_iff (hc : im.Clamped c) :
    im.Completes c o ↔ ∀ y < (im.regionOf c o).height, im.Samples c o y := by
  constructor
  · intro h y hy
    obtain ⟨row, hrow⟩ := h y hy
    exact samples_of_sampled hrow
  · intro h y hy
    exact ⟨_, sampled_pixels hP hc hs hy (h y hy)⟩

include hsize in
theorem Completes.part (h : im.Completes c o) (hc : im.Clamped c)
    (hp : c.Part p o.sampleSize i j) : im.Completes p o := by
  rw [completes_iff hP hs hc] at h
  rw [completes_iff hP hs (hc.part hp)]
  intro y hy k hk
  apply Reads.part hP hsize hc hp
  exact h (y + j) (lt_height_of_part hc hp hs hy) k ((needs_part_iff hc hp hs hy k).mp hk)

theorem completes_of_beside (hc : im.Clamped c) {x : Int}
    (hx : x = c.left + (n * o.sampleSize : Nat)) (hl : c.left < x) (hr : x < c.right)
    (hleft : im.Completes { c with right := x } o) (hright : im.Completes { c with left := x } o) :
    im.Completes c o := by
  have hpl := Rect.part_left hx hl hr hc.height
  have hpr := Rect.part_right hx hr hc.height
  rw [completes_iff hP hs (hc.part hpl)] at hleft
  rw [completes_iff hP hs (hc.part hpr)] at hright
  rw [completes_iff hP hs hc]
  intro y hy k hk
  apply reads_of_parts hl hr hc.left
  · exact hleft y hy k ((needs_part_iff hc hpl hs hy k).mpr hk)
  · exact hright y hy k ((needs_part_iff hc hpr hs hy k).mpr hk)

theorem completes_of_above (hc : im.Clamped c) {y : Int}
    (hy : y = c.top + (n * o.sampleSize : Nat)) (ht : c.top < y) (hb : y < c.bottom)
    (hupper : im.Completes { c with bottom := y } o)
    (hlower : im.Completes { c with top := y } o) : im.Completes c o := by
  have hpu := Rect.part_upper hy ht hb hc.width
  have hpl := Rect.part_lower hy hb hc.width
  have ⟨hbefore, hall⟩ := im.height_above hs hy ht hb
  rw [completes_iff hP hs (hc.part hpu)] at hupper
  rw [completes_iff hP hs (hc.part hpl)] at hlower
  rw [completes_iff hP hs hc]
  intro m hm k hk
  -- Rows are as wide in the whole as in either part.
  by_cases hlt : m < n
  · have hm : m < (im.regionOf { c with bottom := y } o).height := by omega
    exact hupper m hm k ((needs_part_iff hc hpu hs hm k).mpr hk)
  · have hrest : m - n < (im.regionOf { c with top := y } o).height := by omega
    apply hlower (m - n) hrest k
    rw [needs_part_iff hc hpl hs hrest, Nat.sub_add_cancel (by omega)]
    exact hk

theorem line_eq (h : im.Completes c o) (hc : im.Clamped c) {y : Nat}
    (hy : y < (im.regionOf c o).height) :
    (o.painting (im.regionOf c o)).line (im.rows (im.regionOf c o) o) y = (im.coding o).row y
      (Array.ofFn fun x : Fin (Word.ceilDiv c.width o.sampleSize) => c.pixel o P x y) := by
  obtain ⟨row, hrow⟩ := h y hy
  unfold Painting.line
  rw [sampled_pixels hP hc hs hy (samples_of_sampled hrow)]
  rfl

include hsize in
theorem line_of_part (h : im.Completes c o) (hc : im.Clamped c) (hp : c.Part p o.sampleSize i j)
    (hj : (im.coding o).Repeats j) {y : Nat} (hy : y < (im.regionOf p o).height) :
    (o.painting (im.regionOf p o)).line (im.rows (im.regionOf p o) o) y =
      (im.coding o).row (y + j) (Array.ofFn fun x : Fin (Word.ceilDiv p.width o.sampleSize) =>
        c.pixel o P (x + i) (y + j)) := by
  rw [line_eq hP hs (h.part hP hsize hs hc hp) (hc.part hp) hy, Coding.row_add hj]
  congr 2
  funext x
  exact hp.pixel_eq hc.left hc.top hs x.isLt hy P

include hsize

theorem lines_beside (h : im.Completes c o) (hc : im.Clamped c) {x : Int}
    (hx : x = c.left + (n * o.sampleSize : Nat)) (hl : c.left < x) (hr : x < c.right)
    (hn : (im.coding o).Repeats n) :
    im.lines c o = Array.zipWith (fun a b => a ++ b) (im.lines { c with right := x } o)
      (im.lines { c with left := x } o) := by
  have hleft := Rect.part_left hx hl hr hc.height
  have hright := Rect.part_right hx hr hc.height
  have hbefore : Word.ceilDiv (Rect.width { c with right := x }) o.sampleSize = n := by
    have hwidth : Rect.width { c with right := x } = n * o.sampleSize := by
      simp only [Rect.width]
      omega
    rw [hwidth, Word.ceilDiv_mul hs]
  have hall : Word.ceilDiv c.width o.sampleSize =
      n + Word.ceilDiv (Rect.width { c with left := x }) o.sampleSize := by
    have hwidth : c.width = n * o.sampleSize + Rect.width { c with left := x } := by
      simp only [Rect.width]
      omega
    rw [hwidth, Word.ceilDiv_mul_add hs]
  apply Array.ext
  · simp only [lines, Array.size_zipWith, Array.size_map, Array.size_range]
    exact (Nat.min_self _).symm
  · intro y hy _
    have hlt : y < (im.regionOf c o).height := by simpa [lines] using hy
    simp only [lines, Array.getElem_zipWith, Array.getElem_map, Array.getElem_range]
    rw [line_eq hP hs h hc hlt, line_of_part hP hsize hs h hc hleft Coding.repeats_zero hlt,
      line_of_part hP hsize hs h hc hright Coding.repeats_zero hlt, hbefore, hall,
      Packing.ofFn_add (fun x => c.pixel o P x y)]
    apply Coding.row_append
    rw [Array.size_ofFn]
    exact hn

theorem lines_above (h : im.Completes c o) (hc : im.Clamped c) {y : Int}
    (hy : y = c.top + (n * o.sampleSize : Nat)) (ht : c.top < y) (hb : y < c.bottom)
    (hn : (im.coding o).Repeats n) :
    im.lines c o = im.lines { c with bottom := y } o ++ im.lines { c with top := y } o := by
  have hupper := Rect.part_upper hy ht hb hc.width
  have hlower := Rect.part_lower hy hb hc.width
  have ⟨hbefore, hall⟩ := im.height_above hs hy ht hb
  apply Array.ext
  · simp only [lines, Array.size_append, Array.size_map, Array.size_range, hbefore, hall]
  · intro k hk _
    have hlt : k < (im.regionOf c o).height := by simpa [lines] using hk
    rw [Array.getElem_append]
    simp only [lines, Array.getElem_map, Array.getElem_range, Array.size_map, Array.size_range]
    rw [line_eq hP hs h hc hlt]
    split
    next hin =>
      rw [line_of_part hP hsize hs h hc hupper Coding.repeats_zero hin]
      rfl
    next hout =>
      have hrest : k - n < (im.regionOf { c with top := y } o).height := by omega
      rw [hbefore] at hout
      simp only [hbefore]
      rw [line_of_part hP hsize hs h hc hlower hn hrest, Nat.sub_add_cancel (by omega)]
      rfl

end

end Image

end ImageRegion
