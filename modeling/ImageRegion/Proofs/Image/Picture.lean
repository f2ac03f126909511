import ImageRegion.Image.Index
import ImageRegion.Proofs.Image.Rows
import ImageRegion.Proofs.Tiling

namespace ImageRegion

namespace Content

theorem getD_slice (c : Content) (start : Nat) {count i : Nat} (h : i < count) :
    (c.slice start count).getD i 0 = c.byteAt (start + i) := by
  simp [slice, Array.getD_eq_getD_getElem?, h]

end Content

namespace Netpbm.Header

def pixel (h : Header) (c : Content) (x y : Nat) : Pixel :=
  h.pixelAt (c.slice (h.dataOffset + (y * h.width + x) * h.pixelBytes) h.pixelBytes) 0

theorem pixelBytes_pos {h : Header} (hc : h.channels = 1 ∨ h.channels = 3) : 0 < h.pixelBytes := by
  apply Nat.mul_pos
  · rcases hc with hc | hc <;> omega
  · unfold bytesPerSample
    split <;> decide

theorem pixelAt_slice {h : Header} (hc : h.channels = 1 ∨ h.channels = 3) (c : Content)
    (start : Nat) {count i : Nat} (hi : i + h.pixelBytes ≤ count) :
    h.pixelAt (c.slice start count) i = h.pixelAt (c.slice (start + i) h.pixelBytes) 0 := by
  have hp : h.pixelBytes = h.channels * h.bytesPerSample := rfl
  have hb : h.bytesPerSample = 1 ∨ h.bytesPerSample = 2 := by
    unfold bytesPerSample
    split <;> simp
  have hs : ∀ j, j + h.bytesPerSample ≤ h.pixelBytes →
      h.sampleAt (c.slice start count) (i + j) =
        h.sampleAt (c.slice (start + i) h.pixelBytes) (0 + j) := by
    intro j hj
    unfold sampleAt
    rcases hb with hb | hb <;> rw [hb] at hj ⊢
    · simp only [Nat.reduceEqDiff, if_false]
      rw [c.getD_slice start (by omega), c.getD_slice (start + i) (by omega)]
      congr 3
      omega
    · simp only [if_true]
      rw [c.getD_slice start (by omega), c.getD_slice (start + i) (by omega),
        c.getD_slice start (by omega), c.getD_slice (start + i) (by omega)]
      congr 3 <;> omega
  unfold pixelAt
  rcases hc with hc | hc <;> rw [hc] at hp ⊢
  · exact congrArg Pixel.gray (hs 0 (by omega))
  · simp only [Nat.reduceEqDiff, if_false]
    rw [show h.sampleAt (c.slice start count) i = _ from hs 0 (by omega),
      hs h.bytesPerSample (by omega), hs (2 * h.bytesPerSample) (by omega)]

end Netpbm.Header

namespace Farbfeld.Header

def pixel (h : Header) (c : Content) (x y : Nat) : Pixel :=
  pixelAt (c.slice (headerBytes + (y * h.width + x) * pixelBytes) pixelBytes) 0

theorem pixelAt_slice (c : Content) (start : Nat) {count i : Nat} (hi : i + pixelBytes ≤ count) :
    pixelAt (c.slice start count) i = pixelAt (c.slice (start + i) pixelBytes) 0 := by
  have hs : ∀ j, j + 2 ≤ pixelBytes →
      sampleAt (c.slice start count) (i + j) =
        sampleAt (c.slice (start + i) pixelBytes) (0 + j) := by
    intro j hj
    unfold sampleAt
    rw [c.getD_slice start (by omega), c.getD_slice (start + i) (by omega),
      c.getD_slice start (by omega), c.getD_slice (start + i) (by omega)]
    congr 3 <;> omega
  unfold pixelAt
  rw [show sampleAt (c.slice start count) i = _ from hs 0 (by decide), hs 2 (by decide),
    hs 4 (by decide), hs 6 (by decide)]

end Farbfeld.Header

theorem Answers.row_eq {s : Stream} {base width size x y count : Nat}
    {decode : Array UInt8 → Nat → Pixel} {blame : Fault → RowFault} {row : Array Pixel}
    (hd : ∀ start n i, i + size ≤ n →
      decode (s.content.slice start n) i = decode (s.content.slice (start + i) size) 0)
    (hr : Answers.row s.answers (Word.offset64 base y (width * size) x size) size count decode
      blame = .ok row) :
    row = Array.ofFn fun i : Fin count =>
      decode (s.content.slice (base + (y * width + (x + i)) * size) size) 0 := by
  obtain ⟨start, bytes, ho, hb, rfl⟩ := Answers.row_eq_ok hr
  obtain ⟨rfl, _⟩ := Word.offset64_eq_ok_iff.mp ho
  rw [Stream.answers_eq_ok hb]
  congr 1
  funext i
  have hi : i * size + size ≤ count * size := by
    rw [← Nat.succ_mul]
    exact Nat.mul_le_mul_right _ i.isLt
  have ho : base + y * (width * size) + x * size + i * size =
      base + (y * width + (x + i)) * size := by
    simp only [Nat.add_mul, Nat.mul_assoc]
    omega
  rw [hd _ _ _ hi, ho]

namespace Index

/-- `P x y` is the pixel at column `x` of row `y` of the image that the index stands for, over a
content for the encodings that are streamed. -/
def Holds (index : Index) (c : Content) (P : Nat → Nat → Pixel) : Prop :=
  match index with
  | .pnm h => (h.channels = 1 ∨ h.channels = 3) ∧
    ∀ x < h.width, ∀ y < h.height, P x y = h.pixel c x y
  | .farbfeld h => ∀ x < h.width, ∀ y < h.height, P x y = h.pixel c x y
  | .tiled m => ∃ pixels, 0 < m.tileSize ∧ pixels.size = m.width * m.height ∧
    m = .ofPixels m.width m.height m.native m.tileSize pixels ∧
    ∀ x < m.width, ∀ y < m.height, P x y = pixels.getD (y * m.width + x) .clear

theorem rowOf_eq_of_holds {index : Index} {s : Stream} {P : Nat → Nat → Pixel}
    (hP : index.Holds s.content P) {x y count : Nat} {row : Array Pixel}
    (hx : x + count ≤ index.width) (hy : y < index.height)
    (hr : index.rowOf s.answers x count y = .ok row) :
    row = Array.ofFn fun i : Fin count => P (x + i) y := by
  have hin (i : Fin count) : x + i < index.width := by
    have := i.isLt
    omega
  cases index with
  | pnm h =>
    obtain ⟨hc, hP⟩ := hP
    rw [Answers.row_eq (fun _ _ _ h => Netpbm.Header.pixelAt_slice hc _ _ h) hr]
    congr 1
    funext i
    exact (hP _ (hin i) _ hy).symm
  | farbfeld h =>
    rw [Answers.row_eq (fun _ _ _ h => Farbfeld.Header.pixelAt_slice _ _ h) hr]
    congr 1
    funext i
    exact (hP _ (hin i) _ hy).symm
  | tiled m =>
    obtain ⟨pixels, ht, hs, hm, hP⟩ := hP
    simp only [rowOf, Mosaic.readRow] at hr
    split at hr
    · cases hr
    · cases hr
      congr 1
      funext i
      rw [hP _ (hin i) _ hy, hm]
      exact Mosaic.pixelAt_ofPixels m.native ht hs (hin i) hy

end Index

end ImageRegion
