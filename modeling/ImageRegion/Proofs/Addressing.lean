import ImageRegion.Proofs.Farbfeld.Grammar
import ImageRegion.Proofs.Netpbm.Grammar

/-!
Where the rows of a streamed image lie. A source that is shorter than the greatest word is accepted
only with all of its rows, so every offset is exact and no row ends behind the source. The greatest
word itself may stand for a need that is no word, and then rows are looked for where there is
nothing.
-/

namespace ImageRegion

namespace Word

def greatest : Nat := 0xFFFFFFFFFFFFFFFF

theorem lt_of_lt_greatest {n : Nat} (h : n < greatest) : n < 0x10000000000000000 :=
  Nat.lt_succ_of_lt h

theorem cap64_add_le_iff {n k m : Nat} (h : m < greatest) :
    cap64 (cap64 n + k) ≤ m ↔ n + k ≤ m := by
  simp only [greatest] at h
  unfold cap64
  omega

end Word

structure RowLayout where
  base : Nat
  width : Nat
  height : Nat
  pixelBytes : Nat

namespace RowLayout

variable {l : RowLayout} {length x y count : Nat}

def start (l : RowLayout) (x y : Nat) : Nat :=
  l.base + y * (l.width * l.pixelBytes) + x * l.pixelBytes

def columns (l : RowLayout) : Nat := min l.width Rect.maxCoord.toNat

def rows (l : RowLayout) : Nat := min l.height Rect.maxCoord.toNat

def reach (l : RowLayout) : Nat := l.start l.columns (l.rows - 1)

/-- Whatever part of a row lies in a rectangle has its exact offset and ends within the length. -/
def LiesWithin (l : RowLayout) (offsetOf : Nat → Nat → Except Word.Overflow Nat) (length : Nat) :
    Prop :=
  ∀ x y count, x + count ≤ l.columns → y < l.rows →
    offsetOf x y = .ok (l.start x y) ∧ l.start x y + count * l.pixelBytes ≤ length

theorem start_add (l : RowLayout) (x y count : Nat) :
    l.start x y + count * l.pixelBytes = l.start (x + count) y := by
  simp only [start, Nat.add_mul, Nat.add_assoc]

theorem start_mono {x' y' : Nat} (hx : x ≤ x') (hy : y ≤ y') : l.start x y ≤ l.start x' y' := by
  have hrow := Nat.mul_le_mul_right (l.width * l.pixelBytes) hy
  have hcolumn := Nat.mul_le_mul_right l.pixelBytes hx
  simp only [start]
  omega

theorem start_le (hx : x ≤ l.width) (hy : y < l.height) :
    l.start x y ≤ l.width * l.pixelBytes * l.height + l.base := by
  have hcolumn := Nat.mul_le_mul_right l.pixelBytes hx
  have hrow := Word.row_end_le (l.width * l.pixelBytes) hy
  simp only [start]
  omega

theorem liesWithin_iff {offsetOf : Nat → Nat → Except Word.Overflow Nat}
    (ho : ∀ x y, offsetOf x y =
      Word.offset64 l.base y (l.width * l.pixelBytes) x l.pixelBytes)
    (hheight : 0 < l.height) (hlength : length ≤ Word.greatest) :
    l.LiesWithin offsetOf length ↔ l.reach ≤ length := by
  constructor
  · intro h
    have hlast : l.rows - 1 < l.rows := by
      simp only [rows, Rect.maxCoord]
      omega
    obtain ⟨_, hstop⟩ := h 0 (l.rows - 1) l.columns (Nat.le_of_eq (Nat.zero_add _)) hlast
    rw [start_add, Nat.zero_add] at hstop
    exact hstop
  · intro h x y count hx hy
    have hstop : l.start (x + count) y ≤ l.reach := start_mono hx (by omega)
    have hstart : l.start x y ≤ l.start (x + count) y :=
      start_mono (Nat.le_add_right _ _) (Nat.le_refl _)
    refine ⟨?_, ?_⟩
    · rw [ho, Word.offset64_eq_ok_iff]
      simp only [Word.greatest] at hlength
      exact ⟨rfl, by omega⟩
    · rw [start_add]
      omega

theorem reach_le (hheight : 0 < l.height)
    (hdata : l.width * l.pixelBytes * l.height + l.base ≤ length) : l.reach ≤ length := by
  have hlast : l.rows - 1 < l.height := by
    simp only [rows, Rect.maxCoord]
    omega
  exact Nat.le_trans (start_le (Nat.min_le_left _ _) hlast) hdata

end RowLayout

namespace Netpbm.Header

variable {h : Header} {length : Nat}

def layout (h : Header) : RowLayout := ⟨h.dataOffset, h.width, h.height, h.pixelBytes⟩

theorem data_le (hneeded : h.neededBytes ≤ length) (hlength : length < Word.greatest) :
    h.width * h.pixelBytes * h.height + h.dataOffset ≤ length :=
  (Word.cap64_add_le_iff hlength).mp hneeded

end Netpbm.Header

namespace Farbfeld.Header

variable {h : Header} {length : Nat}

def layout (h : Header) : RowLayout := ⟨headerBytes, h.width, h.height, pixelBytes⟩

theorem data_le (hneeded : h.neededBytes ≤ length) (hlength : length < Word.greatest) :
    h.width * pixelBytes * h.height + headerBytes ≤ length := by
  rw [Nat.mul_right_comm]
  exact (Word.cap64_add_le_iff hlength).mp hneeded

end Farbfeld.Header

namespace Stream

variable {s : Stream} {limits : Limits}

/-- Rows of an accepted image lie within its source if and only if the last of them ends there, and
that is never in question unless the source has the greatest length. -/
theorem accepted_rows_lie_within (hlength : s.length ≤ Word.greatest) :
    (∀ h s' event, Netpbm.Header.ofStream s limits = .ok (h, s', event) →
      (h.layout.LiesWithin h.offsetOf s.length ↔ h.layout.reach ≤ s.length) ∧
        (s.length < Word.greatest → h.layout.LiesWithin h.offsetOf s.length)) ∧
    (∀ h s' event, Farbfeld.Header.ofStream s limits = .ok (h, s', event) →
      (h.layout.LiesWithin h.offsetOf s.length ↔ h.layout.reach ≤ s.length) ∧
        (s.length < Word.greatest → h.layout.LiesWithin h.offsetOf s.length)) := by
  constructor
  · intro h s' event ho
    obtain ⟨⟨bytes, hp⟩, hneeded, _⟩ := Netpbm.Header.parse_of_ofStream ho
    obtain ⟨_, _, _, _, _, hspelled⟩ := Netpbm.Header.spelled_of_parse hp
    have hiff : h.layout.LiesWithin h.offsetOf s.length ↔ h.layout.reach ≤ s.length :=
      RowLayout.liesWithin_iff (fun _ _ => rfl) hspelled.height_pos hlength
    refine ⟨hiff, fun hlt => hiff.mpr ?_⟩
    exact RowLayout.reach_le hspelled.height_pos (Netpbm.Header.data_le hneeded hlt)
  · intro h s' event ho
    obtain ⟨⟨bytes, hp⟩, hneeded, _⟩ := Farbfeld.Header.parse_of_ofStream ho
    obtain ⟨_, hspelled⟩ := Farbfeld.Header.spelled_of_parse hp
    have hiff : h.layout.LiesWithin h.offsetOf s.length ↔ h.layout.reach ≤ s.length :=
      RowLayout.liesWithin_iff (fun _ _ => rfl) hspelled.height_pos hlength
    refine ⟨hiff, fun hlt => hiff.mpr ?_⟩
    exact RowLayout.reach_le hspelled.height_pos (Farbfeld.Header.data_le hneeded hlt)

def vast (head : Array UInt8) : Stream :=
  ⟨.reader, ⟨Word.greatest, fun i => head.getD i 0, fun _ => none, none⟩, Word.greatest, 0, whole,
    none, .positionOutOfRange⟩

theorem readExactAt_vast (head : Array UInt8) {count : Nat} (h : count ≤ Word.greatest) :
    (vast head).readExactAt 0 count =
      (.ok ((vast head).content.slice 0 count), (vast head).turned count) := by
  rw [readExactAt_of_ok, Nat.zero_add]
  refine answers_ok_iff.mpr ⟨⟨rfl, by decide⟩, .inr ⟨?_, trivial⟩⟩
  rw [Nat.zero_add]
  exact Content.isClear_of_unfaulted (fun _ => rfl) h

def farbfeldHead (width height : List UInt8) : Array UInt8 :=
  (Farbfeld.name ++ width ++ height).toArray

theorem ofStream_vast {head : Array UInt8} {h : Farbfeld.Header}
    (hp : Farbfeld.Header.parse ((vast head).content.slice 0 16).toList = .ok h) :
    Farbfeld.Header.ofStream (vast head) .none =
      .ok (h, (vast head).turned 16, .farbfeldIndexed h.width h.height) := by
  have hneeded : ¬(vast head).length < h.neededBytes := Nat.not_lt_of_le (Nat.min_le_right _ _)
  unfold Farbfeld.Header.ofStream
  rw [readExactAt_vast _ (by decide)]
  simp only [Farbfeld.headerBytes, hp]
  exact if_neg hneeded

theorem accepted_rows_lie_within_of_vast :
    let s := vast (farbfeldHead [0, 0, 0, 1] [0, 0, 0, 1])
    s.length = Word.greatest ∧
      Farbfeld.Header.ofStream s .none = .ok (⟨1, 1⟩, s.turned 16, .farbfeldIndexed 1 1) ∧
      (Farbfeld.Header.layout ⟨1, 1⟩).LiesWithin (Farbfeld.Header.offsetOf ⟨1, 1⟩) s.length := by
  intro s
  have ho : Farbfeld.Header.ofStream s .none =
      .ok (⟨1, 1⟩, s.turned 16, .farbfeldIndexed 1 1) := ofStream_vast (by decide +kernel)
  refine ⟨rfl, ho, ?_⟩
  exact ((accepted_rows_lie_within (Nat.le_refl _)).2 _ _ _ ho).1.mpr (by decide +kernel)

theorem not_liesWithin_of_vast :
    let s := vast (farbfeldHead [255, 255, 255, 255] [255, 255, 255, 255])
    let h : Farbfeld.Header := ⟨0xFFFFFFFF, 0xFFFFFFFF⟩
    Farbfeld.Header.ofStream s .none =
        .ok (h, s.turned 16, .farbfeldIndexed 0xFFFFFFFF 0xFFFFFFFF) ∧
      h.offsetOf 0 0x7FFFFFFE = .error .product ∧ ¬h.layout.LiesWithin h.offsetOf s.length := by
  intro s h
  have ho : h.offsetOf 0 0x7FFFFFFE = .error .product := by
    unfold Farbfeld.Header.offsetOf Word.offset64
    rw [show Word.product64 0x7FFFFFFE h.rowBytes = .error .product from if_neg (by decide +kernel)]
    rfl
  refine ⟨ofStream_vast (by decide +kernel), ho, fun hlies => ?_⟩
  obtain ⟨hoffset, _⟩ := hlies 0 0x7FFFFFFE 1 (by decide +kernel) (by decide +kernel)
  rw [ho] at hoffset
  cases hoffset

end Stream

end ImageRegion
