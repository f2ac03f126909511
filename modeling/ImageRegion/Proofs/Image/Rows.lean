import ImageRegion.Image.Index
import ImageRegion.Proofs.Source.Reach

namespace ImageRegion

abbrev Answers := Nat → Nat → Except Fault (Array UInt8)

def Answers.row (answers : Answers) (offset : Except Word.Overflow Nat) (size count : Nat)
    (decode : Array UInt8 → Nat → Pixel) (blame : Fault → RowFault) :
    Except RowFailure (Array Pixel) :=
  match offset with
  | .error cause => .error (.breach (.overflow cause))
  | .ok offset =>
    match answers offset (count * size) with
    | .error fault => .error (.fault (blame fault))
    | .ok bytes => .ok (Array.ofFn fun i : Fin count => decode bytes (i * size))

theorem Answers.row_eq_ok {answers : Answers} {offset : Except Word.Overflow Nat}
    {size count : Nat} {decode : Array UInt8 → Nat → Pixel} {blame : Fault → RowFault}
    {row : Array Pixel} (h : answers.row offset size count decode blame = .ok row) :
    ∃ start bytes, offset = .ok start ∧ answers start (count * size) = .ok bytes ∧
      row = Array.ofFn fun i : Fin count => decode bytes (i * size) := by
  unfold Answers.row at h
  split at h
  · cases h
  next start =>
    split at h
    · cases h
    next bytes hb =>
      cases h
      exact ⟨start, bytes, rfl, hb, rfl⟩

theorem Answers.row_ok {s : Stream} (hs : s.InMemory) (hlength : s.length < 0x10000000000000000)
    {base width height size x y count : Nat} {decode : Array UInt8 → Nat → Pixel}
    {blame : Fault → RowFault} (hneeded : width * size * height + base ≤ s.length)
    (hx : x + count ≤ width) (hy : y < height) :
    ∃ row, Answers.row s.answers (Word.offset64 base y (width * size) x size) size count decode
      blame = .ok row := by
  have hrow := Word.row_end_le (width * size) hy
  have hcolumn : x * size + count * size ≤ width * size := by
    rw [← Nat.add_mul]
    exact Nat.mul_le_mul_right _ hx
  have hstop : base + y * (width * size) + x * size + count * size ≤ s.length := by omega
  obtain ⟨bytes, hb⟩ := hs.answers_ok hstop hlength
  have ho := Word.offset64_eq_ok_iff.mpr
    ⟨rfl, (by omega : base + y * (width * size) + x * size < 0x10000000000000000)⟩
  unfold Answers.row
  rw [ho]
  simp only [hb]
  exact ⟨_, rfl⟩

theorem Answers.row_within {s : Stream} (hsize : s.content.size ≤ 0x10000000000000000)
    {base rowBytes size x x' count count' y : Nat} {decode : Array UInt8 → Nat → Pixel}
    {blame : Fault → RowFault} {row : Array Pixel}
    (h : Answers.row s.answers (Word.offset64 base y rowBytes x size) size count decode blame =
      .ok row) (hpos : 0 < size) (hcount : 0 < count') (hx : x ≤ x')
    (hstop : x' + count' ≤ x + count) :
    ∃ row, Answers.row s.answers (Word.offset64 base y rowBytes x' size) size count' decode
      blame = .ok row := by
  obtain ⟨start, bytes, ho, hb, _⟩ := Answers.row_eq_ok h
  obtain ⟨rfl, _⟩ := Word.offset64_eq_ok_iff.mp ho
  have hfirst : x * size ≤ x' * size := Nat.mul_le_mul_right _ hx
  have hlast : x' * size + count' * size ≤ x * size + count * size := by
    rw [← Nat.add_mul, ← Nat.add_mul]
    exact Nat.mul_le_mul_right _ hstop
  obtain ⟨bytes', hb'⟩ := Stream.answers_ok_of_within hb hsize (Nat.mul_pos hcount hpos)
    (Nat.add_le_add_left hfirst _) (by omega)
  obtain ⟨⟨_, hword⟩, _⟩ := Stream.answers_ok_iff.mp ⟨bytes', hb'⟩
  unfold Answers.row
  rw [Word.offset64_eq_ok_iff.mpr ⟨rfl, hword⟩]
  simp only [hb']
  exact ⟨_, rfl⟩

theorem Answers.row_of_parts {s : Stream} {base rowBytes size x count count' y : Nat}
    {decode : Array UInt8 → Nat → Pixel} {blame : Fault → RowFault}
    (hleft : ∃ row, Answers.row s.answers (Word.offset64 base y rowBytes x size) size count decode
      blame = .ok row)
    (hright : ∃ row, Answers.row s.answers (Word.offset64 base y rowBytes (x + count) size) size
      count' decode blame = .ok row) :
    ∃ row, Answers.row s.answers (Word.offset64 base y rowBytes x size) size (count + count')
      decode blame = .ok row := by
  obtain ⟨_, hleft⟩ := hleft
  obtain ⟨_, hright⟩ := hright
  obtain ⟨start, bytes, ho, hb, _⟩ := Answers.row_eq_ok hleft
  obtain ⟨start', bytes', ho', hb', _⟩ := Answers.row_eq_ok hright
  obtain ⟨rfl, _⟩ := Word.offset64_eq_ok_iff.mp ho
  obtain ⟨rfl, _⟩ := Word.offset64_eq_ok_iff.mp ho'
  rw [Nat.add_mul x, ← Nat.add_assoc] at hb'
  obtain ⟨all, hall⟩ := Stream.answers_ok_of_pieces ⟨bytes, hb⟩ ⟨bytes', hb'⟩
  rw [← Nat.add_mul] at hall
  unfold Answers.row
  simp only [ho, hall]
  exact ⟨_, rfl⟩

namespace Index

def rowOf (index : Index) (answers : Answers) (x count y : Nat) :
    Except RowFailure (Array Pixel) :=
  match index with
  | .pnm h => answers.row (h.offsetOf x y) h.pixelBytes count h.pixelAt (.pnmRow y)
  | .farbfeld h =>
    answers.row (h.offsetOf x y) Farbfeld.pixelBytes count Farbfeld.pixelAt (.farbfeldRow y)
  | .tiled m => m.readRow y x count

theorem readRow_eq (index : Index) (f : Feed) (y x count : Nat) : ∃ f' : Feed,
    f'.stream.answers = f.stream.answers ∧
      index.readRow f y x count = (index.rowOf f.stream.answers x count y, f') := by
  cases index with
  | pnm h =>
    simp only [readRow, Netpbm.Header.readRow, rowOf, Answers.row]
    cases h.offsetOf x y with
    | error cause => exact ⟨f, rfl, rfl⟩
    | ok offset =>
      obtain ⟨f', hf, ⟨fault, ha, hl⟩ | ⟨ha, hl⟩⟩ := f.load_cases offset (count * h.pixelBytes)
      · exact ⟨f', hf, by simp only [hl, ha]⟩
      · exact ⟨f', hf, by simp only [hl, ha]⟩
  | farbfeld h =>
    simp only [readRow, Farbfeld.Header.readRow, rowOf, Answers.row]
    cases h.offsetOf x y with
    | error cause => exact ⟨f, rfl, rfl⟩
    | ok offset =>
      obtain ⟨f', hf, ⟨fault, ha, hl⟩ | ⟨ha, hl⟩⟩ :=
        f.load_cases offset (count * Farbfeld.pixelBytes)
      · exact ⟨f', hf, by simp only [hl, ha]⟩
      · exact ⟨f', hf, by simp only [hl, ha]⟩
  | tiled m => exact ⟨f, rfl, rfl⟩

theorem readRow_fst (index : Index) (f : Feed) (y x count : Nat) :
    (index.readRow f y x count).1 = index.rowOf f.stream.answers x count y := by
  obtain ⟨f', _, hr⟩ := index.readRow_eq f y x count
  rw [hr]

end Index

end ImageRegion
