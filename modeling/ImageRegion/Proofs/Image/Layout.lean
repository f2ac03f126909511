import ImageRegion.Proofs.Addressing
import ImageRegion.Proofs.Image.Opening

namespace ImageRegion

theorem Answers.row_ok_iff {s : Stream} {l : RowLayout} {x y count : Nat}
    {decode : Array UInt8 → Nat → Pixel} {blame : Fault → RowFault} (hpos : 0 < l.pixelBytes)
    (hcount : 0 < count) (hword : l.start (x + count) y < 0x10000000000000000) :
    (∃ row, Answers.row s.answers
        (Word.offset64 l.base y (l.width * l.pixelBytes) x l.pixelBytes) l.pixelBytes count decode
        blame = .ok row) ↔ s.Yields ⟨l.start x y, l.start (x + count) y⟩ := by
  have hstart : l.start x y < 0x10000000000000000 :=
    Nat.lt_of_le_of_lt (RowLayout.start_mono (Nat.le_add_right x count) (Nat.le_refl y)) hword
  have hoffset : Word.offset64 l.base y (l.width * l.pixelBytes) x l.pixelBytes =
      .ok (l.start x y) := Word.offset64_eq_ok_iff.mpr ⟨rfl, hstart⟩
  rw [← RowLayout.start_add, ← Stream.answers_ok_iff_yields (Nat.mul_pos hcount hpos) hstart]
  unfold Answers.row
  rw [hoffset]
  dsimp only
  cases s.answers (l.start x y) (count * l.pixelBytes) with
  | error fault => simp
  | ok bytes => simp

theorem Answers.row_congr {a b : Answers} (l : RowLayout) {x y count : Nat}
    {decode : Array UInt8 → Nat → Pixel} {blame : Fault → RowFault}
    (h : a (l.start x y) (count * l.pixelBytes) = b (l.start x y) (count * l.pixelBytes)) :
    a.row (Word.offset64 l.base y (l.width * l.pixelBytes) x l.pixelBytes) l.pixelBytes count decode
        blame =
      b.row (Word.offset64 l.base y (l.width * l.pixelBytes) x l.pixelBytes) l.pixelBytes count
        decode blame := by
  unfold Answers.row
  cases ho : Word.offset64 l.base y (l.width * l.pixelBytes) x l.pixelBytes with
  | error cause => rfl
  | ok offset =>
    obtain ⟨rfl, _⟩ := Word.offset64_eq_ok_iff.mp ho
    dsimp only
    rw [show l.base + y * (l.width * l.pixelBytes) + x * l.pixelBytes = l.start x y from rfl, h]

theorem Answers.fault_of_row {answers : Answers} (l : RowLayout) {x y count : Nat}
    {decode : Array UInt8 → Nat → Pixel} {blame : Fault → RowFault} {e : RowFailure}
    (hword : l.start x y < 0x10000000000000000)
    (h : answers.row (Word.offset64 l.base y (l.width * l.pixelBytes) x l.pixelBytes) l.pixelBytes
      count decode blame = .error e) : ∃ fault, e = .fault fault := by
  have hoffset : Word.offset64 l.base y (l.width * l.pixelBytes) x l.pixelBytes =
      .ok (l.start x y) := Word.offset64_eq_ok_iff.mpr ⟨rfl, hword⟩
  unfold Answers.row at h
  rw [hoffset] at h
  dsimp only at h
  split at h
  · cases h
    exact ⟨_, rfl⟩
  · cases h

namespace Index

def layout? : Index → Option RowLayout
  | .pnm h => some h.layout
  | .farbfeld h => some h.layout
  | .tiled _ => none

variable {index : Index} {l : RowLayout} {s : Stream} {config : Config} {encoding : Encoding}

theorem width_of_layout? (hl : index.layout? = some l) : l.width = index.width := by
  cases index with
  | pnm h => cases hl; rfl
  | farbfeld h => cases hl; rfl
  | tiled m => cases hl

theorem height_of_layout? (hl : index.layout? = some l) : l.height = index.height := by
  cases index with
  | pnm h => cases hl; rfl
  | farbfeld h => cases hl; rfl
  | tiled m => cases hl

theorem rowOf_congr {a b : Answers} {x y count : Nat}
    (h : ∀ l, index.layout? = some l →
      a (l.start x y) (count * l.pixelBytes) = b (l.start x y) (count * l.pixelBytes)) :
    index.rowOf a x count y = index.rowOf b x count y := by
  cases index with
  | pnm h' => exact Answers.row_congr h'.layout (h _ rfl)
  | farbfeld h' => exact Answers.row_congr h'.layout (h _ rfl)
  | tiled m => rfl

theorem rowOf_ok_iff (hl : index.layout? = some l) (hpos : 0 < l.pixelBytes) {x y count : Nat}
    (hcount : 0 < count) (hword : l.start (x + count) y < 0x10000000000000000) :
    (∃ row, index.rowOf s.answers x count y = .ok row) ↔
      s.Yields ⟨l.start x y, l.start (x + count) y⟩ := by
  cases index with
  | pnm h =>
    cases hl
    exact Answers.row_ok_iff hpos hcount hword
  | farbfeld h =>
    cases hl
    exact Answers.row_ok_iff hpos hcount hword
  | tiled m => cases hl

theorem fault_of_rowOf {answers : Answers} {e : RowFailure} (hl : index.layout? = some l)
    {x y count : Nat} (hword : l.start x y < 0x10000000000000000)
    (h : index.rowOf answers x count y = .error e) : ∃ fault, e = .fault fault := by
  cases index with
  | pnm h' =>
    cases hl
    exact Answers.fault_of_row h'.layout hword h
  | farbfeld h' =>
    cases hl
    exact Answers.fault_of_row h'.layout hword h
  | tiled m => cases hl

theorem Built.hasRandomAccess (h : Built s config encoding index)
    (hl : index.layout? = some l) : encoding.hasRandomAccess = true := by
  cases h with
  | pnm _ _ => rfl
  | farbfeld _ => rfl
  | tiled _ _ _ => cases hl

theorem Built.layout?_isSome (h : Built s config encoding index)
    (he : encoding.hasRandomAccess = true) : ∃ l, index.layout? = some l := by
  cases h with
  | pnm _ _ => exact ⟨_, rfl⟩
  | farbfeld _ => exact ⟨_, rfl⟩
  | tiled hencoding _ _ =>
    rw [hencoding] at he
    cases he

theorem Built.pixelBytes_pos (h : Built s config encoding index) (hl : index.layout? = some l) :
    0 < l.pixelBytes := by
  cases h with
  | pnm hvalid _ =>
    cases hl
    exact Netpbm.Header.pixelBytes_pos hvalid.channels
  | farbfeld _ =>
    cases hl
    show 0 < Farbfeld.pixelBytes
    decide
  | tiled _ _ _ => cases hl

theorem Built.start_le (h : Built s config encoding index) (hl : index.layout? = some l)
    (hlength : s.length < Word.greatest) {x y : Nat} (hx : x ≤ index.width)
    (hy : y < index.height) : l.start x y ≤ s.length := by
  rw [← width_of_layout? hl] at hx
  rw [← height_of_layout? hl] at hy
  refine Nat.le_trans (RowLayout.start_le hx hy) ?_
  cases h with
  | pnm _ hneeded =>
    cases hl
    exact Netpbm.Header.data_le hneeded hlength
  | farbfeld hneeded =>
    cases hl
    exact Farbfeld.Header.data_le hneeded hlength
  | tiled _ _ _ => cases hl

theorem Built.rowOf_ok_of_yields (h : Built s config encoding index)
    (hs : encoding.hasRandomAccess = true → s.Yields ⟨0, s.length⟩ ∧ s.length < Word.greatest)
    {x y count : Nat} (hcount : 0 < count) (hx : x + count ≤ index.width) (hy : y < index.height) :
    ∃ row, index.rowOf s.answers x count y = .ok row := by
  cases hl : index.layout? with
  | none =>
    cases h with
    | pnm _ _ => cases hl
    | farbfeld _ => cases hl
    | tiled _ _ _ => exact ⟨_, if_neg (not_or.mpr ⟨Nat.not_le_of_lt hy, Nat.not_lt_of_le hx⟩)⟩
  | some l =>
    obtain ⟨hyields, hlength⟩ := hs (h.hasRandomAccess hl)
    have hstop := h.start_le hl hlength hx hy
    apply (rowOf_ok_iff hl (h.pixelBytes_pos hl) hcount _).mpr
      (hyields.within (Nat.zero_le _) hstop)
    exact Nat.lt_of_le_of_lt hstop (Word.lt_of_lt_greatest hlength)

theorem pos_of_build {t : Stream} {event : Event}
    (h : build encoding s config = .ok (index, t, event)) :
    0 < index.width ∧ 0 < index.height := by
  have htile (h : tile encoding s config = .ok (index, t, event)) :
      0 < index.width ∧ 0 < index.height := by
    unfold tile at h
    split at h
    · cases h
    · split at h
      · cases h
      · obtain ⟨_, _, h⟩ := bind_eq_ok h
        cases h
      · obtain ⟨_, hadmitted, h⟩ := bind_eq_ok h
        obtain ⟨_, _, h⟩ := bind_eq_ok h
        cases h
        unfold admitTiles at hadmitted
        split at hadmitted
        · cases hadmitted
        next hsize =>
          rw [not_or] at hsize
          exact ⟨Nat.pos_of_ne_zero hsize.1, Nat.pos_of_ne_zero hsize.2⟩
  cases encoding with
  | pnm =>
    obtain ⟨_, ho, h⟩ := bind_eq_ok h
    cases h
    obtain ⟨⟨_, hp⟩, _⟩ := Netpbm.Header.parse_of_ofStream (mapError_eq_ok ho)
    obtain ⟨_, _, _, _, _, hspelled⟩ := Netpbm.Header.spelled_of_parse hp
    exact ⟨hspelled.width_pos, hspelled.height_pos⟩
  | farbfeld =>
    obtain ⟨_, ho, h⟩ := bind_eq_ok h
    cases h
    obtain ⟨⟨_, hp⟩, _⟩ := Farbfeld.Header.parse_of_ofStream (mapError_eq_ok ho)
    obtain ⟨_, hspelled⟩ := Farbfeld.Header.spelled_of_parse hp
    exact ⟨hspelled.width_pos, hspelled.height_pos⟩
  | _ => exact htile h

end Index

theorem Viewer.pos_of_openStream {s : Stream} {config : Config} {v : Viewer} {events : List Event}
    (h : openStream s config = (.ok v, events)) : 0 < v.image.width ∧ 0 < v.image.height := by
  unfold openStream openChanging at h
  split at h
  · cases h
  · split at h
    · cases h
    · split at h
      · cases h
      next hi =>
        cases h
        obtain ⟨⟨index, t, event⟩, hb, hi⟩ := bind_eq_ok hi
        cases hi
        exact Index.pos_of_build hb

end ImageRegion
