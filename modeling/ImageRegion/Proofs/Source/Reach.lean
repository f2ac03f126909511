import ImageRegion.Geometry.Span
import ImageRegion.Proofs.Source.Answers
import ImageRegion.Source.Supply

namespace ImageRegion

namespace Content

def IsClear (c : Content) (span : Span) : Prop :=
  ∀ i, span.first ≤ i → i < span.stop → c.Readable i

variable {c : Content} {start count : Nat}

theorem IsClear.within {span span' : Span} (h : c.IsClear span) (hfirst : span.first ≤ span'.first)
    (hstop : span'.stop ≤ span.stop) : c.IsClear span' :=
  fun i hi hlt => h i (Nat.le_trans hfirst hi) (Nat.lt_of_lt_of_le hlt hstop)

theorem IsClear.append {first middle last : Nat} (h : c.IsClear ⟨first, middle⟩)
    (h' : c.IsClear ⟨middle, last⟩) : c.IsClear ⟨first, last⟩ := by
  intro i hi hlt
  rcases Nat.lt_or_ge i middle with hbefore | hbehind
  · exact h i hi hbefore
  · exact h' i hbehind hlt

theorem IsClear.stop_le {span : Span} (h : c.IsClear span) (hspan : span.first < span.stop) :
    span.stop ≤ c.size := by
  have hlast := h (span.stop - 1) (by omega) (by omega)
  have hsize := hlast.1
  omega

theorem isClear_reach (c : Content) (start count : Nat) :
    c.IsClear ⟨start, c.reach start count⟩ := fun _ => readable_of_lt_reach

theorem reach_eq_iff : c.reach start count = start + count ↔ c.IsClear ⟨start, start + count⟩ := by
  constructor
  · intro h
    rw [← h]
    exact c.isClear_reach start count
  · intro h
    refine Nat.le_antisymm (c.reach_le start count) (Nat.le_of_not_lt fun hshort => ?_)
    exact not_readable_reach hshort (h _ (c.le_reach start count) hshort)

theorem isClear_of_unfaulted {span : Span} (hfault : ∀ i, c.fault i = none)
    (hstop : span.stop ≤ c.size) : c.IsClear span :=
  fun i _ hlt => ⟨Nat.lt_of_lt_of_le hlt hstop, hfault i⟩

end Content

def Medium.Permits : Medium → Nat → Prop
  | .descriptor _ isReadable, stop => isReadable = true ∧ stop < Stream.fileLimit
  | _, _ => True

theorem Medium.Permits.mono {m : Medium} {stop stop' : Nat} (h : m.Permits stop)
    (hle : stop' ≤ stop) : m.Permits stop' := by
  cases m with
  | descriptor file isReadable => exact ⟨h.1, Nat.lt_of_le_of_lt hle h.2⟩
  | memory => trivial
  | reader => trivial

namespace Stream

def Reaches (s : Stream) (span : Span) : Prop :=
  s.content.IsClear span ∧ s.medium.Permits span.stop

variable {s s' : Stream} {offset count : Nat} {bytes : Array UInt8}

theorem Reaches.within {span span' : Span} (h : s.Reaches span) (hfirst : span.first ≤ span'.first)
    (hstop : span'.stop ≤ span.stop) : s.Reaches span' :=
  ⟨h.1.within hfirst hstop, h.2.mono hstop⟩

theorem readRefusal?_eq_none :
    s.readRefusal? count = none ↔ s.medium.Permits (s.position + count) := by
  unfold readRefusal? Medium.Permits
  cases s.medium with
  | descriptor file isReadable =>
    by_cases hp : fileLimit ≤ s.position
    · have hlast : ¬s.position + count < fileLimit := by omega
      simp [hp, hlast]
    · cases isReadable <;> simp [hp]
  | memory => simp
  | reader => simp

theorem wanted_pos (hc : 0 < count) (s : Stream) : 0 < s.wanted count := by
  unfold wanted
  rw [if_neg (Nat.ne_of_gt hc)]
  omega

theorem read_of_reaches (hc : 0 < count) (h : s.Reaches ⟨s.position, s.position + count⟩) :
    ∃ bytes, 0 < bytes.size ∧ s.read count = (.ok bytes, s.turned (s.position + bytes.size)) := by
  have hwanted := wanted_pos hc s
  have hle := s.wanted_le count
  have hlast : s.position + s.wanted count ≤ s.position + count := by omega
  have hclear : s.content.IsClear ⟨s.position, s.position + s.wanted count⟩ :=
    h.1.within (Nat.le_refl _) hlast
  have hfirst := (hclear s.position (Nat.le_refl _) (Nat.lt_add_of_pos_right hwanted)).2
  refine ⟨s.content.slice s.position (s.wanted count), ?_, ?_⟩
  · rw [Content.size_slice]
    exact hwanted
  · unfold read Content.read
    rw [readRefusal?_eq_none.mpr h.2, hfirst, ite_self, Content.reach_eq_iff.mpr hclear,
      Nat.add_sub_cancel_left]
    rfl

theorem isClear_of_read (h : s.read count = (.ok bytes, s')) :
    s.content.IsClear ⟨s.position, s.position + bytes.size⟩ ∧
      s.medium.Permits (s.position + count) := by
  unfold read at h
  split at h
  · simp at h
  next hr =>
    refine ⟨?_, readRefusal?_eq_none.mp hr⟩
    split at h
    · simp at h
    next hread =>
      simp only [Prod.mk.injEq, Except.ok.injEq] at h
      obtain ⟨rfl, _⟩ := h
      rw [Content.size_read hread, Nat.add_sub_cancel' (Content.le_reach _ _ _)]
      exact s.content.isClear_reach _ _

theorem fill_of_reaches (h : count = 0 ∨ s.Reaches ⟨s.position, s.position + count⟩)
    (got : Array UInt8) : s.fill count got =
      (got ++ s.content.slice s.position count, none, s.turned (s.position + count)) := by
  fun_induction fill s count got with
  | case1 s got =>
    rw [Content.slice_zero, Array.append_empty]
    rfl
  | case2 s count got hc fault s' hr =>
    obtain ⟨bytes, _, hread⟩ := read_of_reaches (Nat.pos_of_ne_zero hc) (h.resolve_left hc)
    rw [hr] at hread
    simp at hread
  | case3 s count got hc bytes s' hr hb =>
    obtain ⟨bytes', hpos, hread⟩ := read_of_reaches (Nat.pos_of_ne_zero hc) (h.resolve_left hc)
    rw [hr] at hread
    simp only [Prod.mk.injEq, Except.ok.injEq] at hread
    rw [← hread.1] at hpos
    omega
  | case4 s count got hc bytes s' hr hb ih =>
    obtain ⟨hle, hslice, rfl⟩ := read_eq_ok hr
    have hstop : (s.turned (s.position + bytes.size)).position + (count - bytes.size) =
        s.position + count := by
      simp only [turned]
      omega
    have hjoined := s.content.slice_add s.position bytes.size (count - bytes.size)
    rw [← hslice, Nat.add_sub_cancel' hle] at hjoined
    have hrest : s.Reaches ⟨s.position + bytes.size, s.position + count⟩ :=
      (h.resolve_left hc).within (Nat.le_add_right _ _) (Nat.le_refl _)
    rw [hstop] at ih
    rw [ih (.inr hrest), Array.append_assoc, hjoined]
    rfl

theorem fill_full_iff (s : Stream) (count : Nat) (got : Array UInt8) :
    (s.fill count got).1.size = got.size + count ∧ (s.fill count got).2.1 = none ↔
      count = 0 ∨ s.Reaches ⟨s.position, s.position + count⟩ := by
  constructor
  · fun_induction fill s count got with
    | case1 s got => exact fun _ => .inl rfl
    | case2 s count got hc fault s' hr => exact fun h => absurd h.2 (Option.some_ne_none fault)
    | case3 s count got hc bytes s' hr hb =>
      intro h
      have := h.1
      dsimp only at this
      omega
    | case4 s count got hc bytes s' hr hb ih =>
      obtain ⟨hle, _, rfl⟩ := read_eq_ok hr
      obtain ⟨hfirst, hpermits⟩ := isClear_of_read hr
      have hstop : (s.turned (s.position + bytes.size)).position + (count - bytes.size) =
          s.position + count := by
        simp only [turned]
        omega
      rw [hstop, Array.size_append, Nat.add_assoc, Nat.add_sub_cancel' hle] at ih
      intro h
      rcases ih h with hrest | hrest
      · have hall : bytes.size = count := Nat.le_antisymm hle (Nat.le_of_sub_eq_zero hrest)
        rw [hall] at hfirst
        exact .inr ⟨hfirst, hpermits⟩
      · exact .inr ⟨hfirst.append hrest.1, hpermits⟩
  · intro h
    rw [fill_of_reaches h]
    exact ⟨by rw [Array.size_append, Content.size_slice], rfl⟩

theorem seek_start_ok_iff : (∃ position, (s.seek (.start offset)).1 = .ok position) ↔
    s.seekFault = none ∧ offset < 0x10000000000000000 := by
  unfold seek positionOf
  cases s.seekFault with
  | some fault => simp
  | none =>
    by_cases h : 0 ≤ (offset : Int) ∧ (offset : Int) < 0x10000000000000000
    · simp only [h, and_self, if_true]
      simp
      omega
    · simp only [h, if_false]
      simp
      omega

theorem seek_start_of_seekable (hseek : s.seekFault = none)
    (hoffset : offset < 0x10000000000000000) :
    s.seek (.start offset) = (.ok offset, s.turned offset) := by
  obtain ⟨position, hok⟩ := seek_start_ok_iff.mpr ⟨hseek, hoffset⟩
  rcases s.seek_start offset with ⟨fault, h⟩ | h
  · have hfault := hok.symm.trans (congrArg Prod.fst (h s.position))
    cases hfault
  · exact h s.position

theorem readExact_ok_iff : (∃ bytes, (s.readExact count).1 = .ok bytes) ↔
    count = 0 ∨ s.Reaches ⟨s.position, s.position + count⟩ := by
  have hfull := s.fill_full_iff count #[]
  obtain ⟨n, hn, hslice⟩ := s.fill_eq_slice count #[]
  have hle : (s.fill count #[]).1.size ≤ count := by
    rw [hslice, Array.empty_append, Content.size_slice]
    exact hn
  rw [Array.size_empty, Nat.zero_add] at hfull
  rw [← hfull]
  unfold readExact
  rcases hf : s.fill count #[] with ⟨got, fault | _, s'⟩
  · rw [hf] at hle
    dsimp only at hle ⊢
    by_cases hlt : got.size < count
    · simp only [if_pos hlt]
      simp [Nat.ne_of_lt hlt]
    · simp only [if_neg hlt]
      simp [Nat.le_antisymm hle (Nat.le_of_not_lt hlt)]
  · simp

theorem answers_ok_iff : (∃ bytes, s.answers offset count = .ok bytes) ↔
    (s.seekFault = none ∧ offset < 0x10000000000000000) ∧
      (count = 0 ∨ s.Reaches ⟨offset, offset + count⟩) := by
  rw [← seek_start_ok_iff]
  unfold answers readExactAt
  rcases s.seek_start offset with ⟨fault, h⟩ | h
  · rw [show s.seek (.start offset) = _ from h s.position]
    simp
  · rw [show s.seek (.start offset) = _ from h s.position]
    simp only [Except.ok.injEq, exists_eq', true_and]
    exact readExact_ok_iff

def Yields (s : Stream) (span : Span) : Prop := s.seekFault = none ∧ s.Reaches span

theorem Yields.within {span span' : Span} (h : s.Yields span) (hfirst : span.first ≤ span'.first)
    (hstop : span'.stop ≤ span.stop) : s.Yields span' := ⟨h.1, h.2.within hfirst hstop⟩

theorem answers_ok_iff_yields (hc : 0 < count) (hoffset : offset < 0x10000000000000000) :
    (∃ bytes, s.answers offset count = .ok bytes) ↔ s.Yields ⟨offset, offset + count⟩ := by
  rw [answers_ok_iff]
  constructor
  · rintro ⟨⟨hseek, _⟩, hzero | hreach⟩
    · omega
    · exact ⟨hseek, hreach⟩
  · rintro ⟨hseek, hreach⟩
    exact ⟨⟨hseek, hoffset⟩, .inr hreach⟩

theorem readExactAt_of_ok (h : ∃ bytes, s.answers offset count = .ok bytes) :
    s.readExactAt offset count =
      (.ok (s.content.slice offset count), s.turned (offset + count)) := by
  obtain ⟨⟨hseek, hoffset⟩, hreach⟩ := answers_ok_iff.mp h
  have hfill : (s.turned offset).fill count #[] = _ := fill_of_reaches hreach #[]
  rw [readExactAt, seek_start_of_seekable hseek hoffset]
  simp only [readExact, hfill, Array.empty_append]
  exact congrArg (·, _) (if_neg (by rw [Content.size_slice]; omega))

theorem answers_ok_of_within {offset' count' : Nat} (h : s.answers offset count = .ok bytes)
    (hs : s.content.size ≤ 0x10000000000000000) (hc : 0 < count') (hfirst : offset ≤ offset')
    (hlast : offset' + count' ≤ offset + count) :
    ∃ bytes, s.answers offset' count' = .ok bytes := by
  obtain ⟨⟨hseek, _⟩, hreach⟩ := answers_ok_iff.mp ⟨bytes, h⟩
  have hreach := hreach.resolve_left (by omega)
  have hbefore : offset' < offset + count := by omega
  have hword : offset' < s.content.size := (hreach.1 offset' hfirst hbefore).1
  exact answers_ok_iff.mpr ⟨⟨hseek, by omega⟩, .inr (hreach.within hfirst hlast)⟩

theorem answers_ok_of_pieces {count' : Nat} (hfirst : ∃ bytes, s.answers offset count = .ok bytes)
    (hrest : ∃ bytes, s.answers (offset + count) count' = .ok bytes) :
    ∃ bytes, s.answers offset (count + count') = .ok bytes := by
  obtain ⟨hstart, hreach⟩ := answers_ok_iff.mp hfirst
  obtain ⟨_, hlast⟩ := answers_ok_iff.mp hrest
  refine answers_ok_iff.mpr ⟨hstart, ?_⟩
  rw [Nat.add_assoc] at hlast
  rcases hlast with rfl | hlast
  · exact hreach
  · rcases hreach with rfl | hreach
    · rw [Nat.zero_add] at hlast ⊢
      exact .inr hlast
    · exact .inr ⟨hreach.1.append hlast.1, hlast.2⟩

def padded (head : Array UInt8) (length : Nat) : Stream :=
  ⟨.reader, ⟨length, fun i => head.getD i 0, fun _ => none, none⟩, length, 0, whole, none,
    .positionOutOfRange⟩

theorem readExactAt_padded (head : Array UInt8) {length : Nat} (p : Nat)
    (hstop : offset + count ≤ length) (hlength : length < 0x10000000000000000) :
    ((padded head length).turned p).readExactAt offset count =
      (.ok ((padded head length).content.slice offset count),
        (padded head length).turned (offset + count)) := by
  apply readExactAt_of_ok
  exact answers_ok_iff.mpr
    ⟨⟨rfl, by omega⟩, .inr ⟨Content.isClear_of_unfaulted (fun _ => rfl) hstop, trivial⟩⟩

structure InMemory (s : Stream) : Prop where
  medium : s.medium = .memory
  seekFault : s.seekFault = none
  fault : ∀ i, s.content.fault i = none
  length : s.length = s.content.size

theorem InMemory.seek_start (h : s.InMemory) (hoffset : offset < 0x10000000000000000) :
    s.seek (.start offset) = (.ok offset, s.turned offset) :=
  seek_start_of_seekable h.seekFault hoffset

theorem InMemory.yields (h : s.InMemory) {span : Span} (hstop : span.stop ≤ s.length) :
    s.Yields span := by
  refine ⟨h.seekFault, Content.isClear_of_unfaulted h.fault (h.length ▸ hstop), ?_⟩
  rw [h.medium]
  trivial

theorem InMemory.answers_ok (h : s.InMemory) (hstop : offset + count ≤ s.length)
    (hlength : s.length < 0x10000000000000000) :
    ∃ bytes, s.answers offset count = .ok bytes :=
  answers_ok_iff.mpr ⟨⟨h.seekFault, by omega⟩, .inr (h.yields hstop).2⟩

theorem InMemory.readExactAt_eq (h : s.InMemory) (hstop : offset + count ≤ s.length)
    (hlength : s.length < 0x10000000000000000) : s.readExactAt offset count =
      (.ok (s.content.slice offset count), s.turned (offset + count)) :=
  readExactAt_of_ok (h.answers_ok hstop hlength)

theorem InMemory.turned (h : s.InMemory) (position : Nat) : (s.turned position).InMemory :=
  ⟨h.medium, h.seekFault, h.fault, h.length⟩

theorem inMemory_ofCopy (medium : Content) (bytes : Array UInt8) :
    (ofCopy medium bytes).InMemory := ⟨rfl, rfl, fun _ => rfl, rfl⟩

theorem inMemory_ofBytes (bytes : Array UInt8) : (ofBytes bytes).InMemory :=
  ⟨rfl, rfl, fun _ => rfl, rfl⟩

end Stream

def Supply.InMemory : Supply → Prop
  | .bytes c => ∀ i, c.fault i = none
  | .drained _ | .asset _ _ => True
  | .file _ | .held _ => False

theorem Supply.InMemory.stream {supply : Supply} {s : Stream} (h : supply.InMemory)
    (hs : supply.stream = .ok s) : s.InMemory := by
  cases supply with
  | bytes c =>
    cases hs
    exact ⟨rfl, rfl, h, rfl⟩
  | drained reader =>
    simp only [Supply.stream, Stream.ofReader] at hs
    split at hs
    · cases hs
    · cases hs
      exact Stream.inMemory_ofCopy _ _
  | asset asset declared =>
    simp only [Supply.stream, Stream.ofAsset] at hs
    split at hs
    · cases hs
    · split at hs
      · cases hs
      · split at hs
        · cases hs
        · cases hs
          exact Stream.inMemory_ofCopy _ _
  | file file => exact absurd h id
  | held reader => exact absurd h id

end ImageRegion
