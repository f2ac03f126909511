import ImageRegion.Source.Feed

namespace ImageRegion

namespace Content

theorem slice_add (c : Content) (start m n : Nat) :
    c.slice start (m + n) = c.slice start m ++ c.slice (start + m) n := by
  apply Array.ext_getElem?
  intro i
  rw [Array.getElem?_append, size_slice]
  split
  · simp only [slice, Array.getElem?_ofFn]
    rw [dif_pos (by omega), dif_pos (by omega)]
  · simp only [slice, Array.getElem?_ofFn]
    split
    · rw [dif_pos (by omega), Nat.add_assoc, Nat.add_sub_cancel' (by omega)]
    · rw [dif_neg (by omega)]

theorem slice_zero (c : Content) (start : Nat) : c.slice start 0 = #[] := rfl

section Reach

variable {c : Content} {start count : Nat}

theorem le_reach (c : Content) (start count : Nat) : start ≤ c.reach start count := by
  induction count generalizing start with
  | zero => exact Nat.le_refl start
  | succ count ih =>
    unfold reach
    split
    · exact Nat.le_trans (Nat.le_succ start) (ih (start + 1))
    · exact Nat.le_refl start

theorem reach_le (c : Content) (start count : Nat) : c.reach start count ≤ start + count := by
  induction count generalizing start with
  | zero => exact Nat.le_refl start
  | succ count ih =>
    unfold reach
    split
    · have hrest := ih (start + 1)
      omega
    · exact Nat.le_add_right _ _

theorem readable_of_lt_reach {i : Nat} (hi : start ≤ i) (hlt : i < c.reach start count) :
    c.Readable i := by
  induction count generalizing start with
  | zero => exact absurd hlt (Nat.not_lt_of_le hi)
  | succ count ih =>
    unfold reach at hlt
    split at hlt
    next hfirst =>
      rcases Nat.eq_or_lt_of_le hi with rfl | hrest
      · exact hfirst
      · exact ih hrest hlt
    · exact absurd hlt (Nat.not_lt_of_le hi)

theorem not_readable_reach (h : c.reach start count < start + count) :
    ¬c.Readable (c.reach start count) := by
  induction count generalizing start with
  | zero => exact absurd h (Nat.lt_irrefl _)
  | succ count ih =>
    unfold reach at h ⊢
    split
    next hfirst =>
      rw [if_pos hfirst] at h
      exact ih (by omega)
    next hfirst => exact hfirst

theorem reach_le_size (h : start ≤ c.size) : c.reach start count ≤ c.size := by
  refine Nat.le_of_not_lt fun hpast => ?_
  have hlast : c.Readable c.size := readable_of_lt_reach h hpast
  exact absurd hlast.1 (Nat.lt_irrefl _)

theorem read_eq_slice {bytes : Array UInt8} (h : c.read start count = .ok bytes) :
    bytes = c.slice start (c.reach start count - start) := by
  unfold read at h
  split at h
  · cases h
  · cases h
    rfl

theorem size_read {bytes : Array UInt8} (h : c.read start count = .ok bytes) :
    bytes.size = c.reach start count - start := by
  rw [read_eq_slice h, size_slice]

end Reach

end Content

namespace Stream

def answers (s : Stream) (offset count : Nat) : Except Fault (Array UInt8) :=
  (s.readExactAt offset count).1

def turned (s : Stream) (position : Nat) : Stream := { s with position }

theorem read_turns (s : Stream) (count : Nat) : ∃ p, (s.read count).2 = s.turned p := by
  unfold read
  split
  · exact ⟨s.position, rfl⟩
  · split
    · exact ⟨s.position, rfl⟩
    · exact ⟨_, rfl⟩

theorem fill_turns (s : Stream) (count : Nat) (got : Array UInt8) :
    ∃ p, (s.fill count got).2.2 = s.turned p := by
  fun_induction fill s count got with
  | case1 s got => exact ⟨s.position, rfl⟩
  | case2 s count got hc fault s' hr =>
    obtain ⟨p, hp⟩ := s.read_turns count
    exact ⟨p, by rw [← hp, hr]⟩
  | case3 s count got hc bytes s' hr hb =>
    obtain ⟨p, hp⟩ := s.read_turns count
    exact ⟨p, by rw [← hp, hr]⟩
  | case4 s count got hc bytes s' hr hb ih =>
    obtain ⟨p, hp⟩ := s.read_turns count
    obtain ⟨q, hq⟩ := ih
    have hs : s' = s.turned p := by rw [← hp, hr]
    exact ⟨q, by rw [hq, hs]; rfl⟩

theorem read_eq_ok {s s' : Stream} {count : Nat} {bytes : Array UInt8}
    (h : s.read count = (.ok bytes, s')) :
    bytes.size ≤ count ∧ bytes = s.content.slice s.position bytes.size ∧
      s' = s.turned (s.position + bytes.size) := by
  unfold read at h
  split at h
  · simp at h
  · split at h
    · simp at h
    next hr =>
      simp only [Prod.mk.injEq, Except.ok.injEq] at h
      obtain ⟨rfl, rfl⟩ := h
      have hs := Content.size_read hr
      have hr' := s.content.reach_le s.position (s.wanted count)
      have hw := s.wanted_le count
      refine ⟨by omega, ?_, rfl⟩
      rw [hs]
      exact Content.read_eq_slice hr

theorem fill_eq_slice (s : Stream) (count : Nat) (got : Array UInt8) :
    ∃ n ≤ count, (s.fill count got).1 = got ++ s.content.slice s.position n := by
  fun_induction fill s count got with
  | case1 s got => exact ⟨0, Nat.le_refl _, by rw [Content.slice_zero, Array.append_empty]⟩
  | case2 s count got => exact ⟨0, Nat.zero_le _, by rw [Content.slice_zero, Array.append_empty]⟩
  | case3 s count got =>
    exact ⟨0, Nat.zero_le _, by rw [Content.slice_zero, Array.append_empty]⟩
  | case4 s count got hc bytes s' hr hb ih =>
    obtain ⟨n, hn, he⟩ := ih
    obtain ⟨hsize, hslice, hs⟩ := read_eq_ok hr
    refine ⟨bytes.size + n, by omega, ?_⟩
    rw [he, hs, Array.append_assoc, Content.slice_add, ← hslice]
    rfl

theorem seek_start (s : Stream) (offset : Nat) :
    (∃ fault, ∀ p, (s.turned p).seek (.start offset) = (.error fault, s.turned p)) ∨
      ∀ p, (s.turned p).seek (.start offset) = (.ok offset, s.turned offset) := by
  unfold seek turned
  cases s.seekFault with
  | some fault => exact .inl ⟨fault, fun _ => rfl⟩
  | none =>
    by_cases h : 0 ≤ (offset : Int) ∧ (offset : Int) < 0x10000000000000000
    · right
      exact fun p => if_pos h
    · exact .inl ⟨s.refusal, fun p => if_neg h⟩

theorem readExactAt_start (s : Stream) (offset : Nat) :
    (∃ fault, ∀ p count,
        (s.turned p).readExactAt offset count = (.error fault, s.turned p)) ∨
      ∀ p count, (s.turned p).readExactAt offset count = (s.turned offset).readExact count := by
  rcases s.seek_start offset with ⟨fault, hseek⟩ | hseek
  · refine .inl ⟨fault, fun p count => ?_⟩
    rw [readExactAt, hseek p]
  · refine .inr fun p count => ?_
    rw [readExactAt, hseek p]

theorem readExact_turns (s : Stream) (count : Nat) : ∃ p, (s.readExact count).2 = s.turned p := by
  obtain ⟨p, hp⟩ := s.fill_turns count #[]
  refine ⟨p, ?_⟩
  rw [← hp]
  unfold readExact
  split <;> simp_all

theorem readExactAt_turns (s : Stream) (offset count : Nat) :
    ∃ p, (s.readExactAt offset count).2 = s.turned p := by
  rcases s.readExactAt_start offset with ⟨fault, h⟩ | h
  · exact ⟨s.position, congrArg Prod.snd (h s.position count)⟩
  · obtain ⟨p, hp⟩ := (s.turned offset).readExact_turns count
    exact ⟨p, (congrArg Prod.snd (h s.position count)).trans hp⟩

theorem answers_turned (s : Stream) (p : Nat) : (s.turned p).answers = s.answers := by
  funext offset count
  rcases s.readExactAt_start offset with ⟨fault, h⟩ | h
  · exact (congrArg Prod.fst (h p count)).trans (congrArg Prod.fst (h s.position count)).symm
  · exact congrArg Prod.fst ((h p count).trans (h s.position count).symm)

theorem answers_readExactAt (s : Stream) (offset count : Nat) :
    (s.readExactAt offset count).2.answers = s.answers := by
  obtain ⟨p, hp⟩ := s.readExactAt_turns offset count
  rw [hp, answers_turned]

theorem answers_eq_ok {s : Stream} {offset count : Nat} {bytes : Array UInt8}
    (h : s.answers offset count = .ok bytes) : bytes = s.content.slice offset count := by
  rcases s.readExactAt_start offset with ⟨fault, hs⟩ | hs
  · rw [answers, show s.readExactAt offset count = _ from hs s.position count] at h
    cases h
  · rw [answers, show s.readExactAt offset count = _ from hs s.position count] at h
    obtain ⟨n, hn, he⟩ := (s.turned offset).fill_eq_slice count #[]
    simp only [readExact] at h
    split at h
    · cases h
    next got s' hf =>
      simp only [hf, Array.empty_append] at he
      have hz := Content.size_slice (s.turned offset).content (s.turned offset).position n
      split at h
      · cases h
      next hc =>
        cases h
        rw [he, hz] at hc
        rw [he, Nat.le_antisymm hn (Nat.le_of_not_lt hc)]
        rfl

end Stream

namespace Feed

theorem load_fst (f : Feed) (offset count : Nat) :
    (f.load offset count).1 = (f.stream.answers offset count).map fun _ => () := by
  unfold load Stream.answers Stream.readExactAt Stream.readExact
  rcases f.stream.seek (.start offset) with ⟨fault | position, s⟩
  · rfl
  · simp only
    rcases s.fill count #[] with ⟨got, fault | _, s'⟩
    · simp only
      split <;> rfl
    · rfl

theorem load_stream (f : Feed) (offset count : Nat) :
    (f.load offset count).2.stream = (f.stream.readExactAt offset count).2 := by
  unfold load Stream.readExactAt Stream.readExact
  rcases f.stream.seek (.start offset) with ⟨fault | position, s⟩
  · rfl
  · simp only
    rcases s.fill count #[] with ⟨got, fault | _, s'⟩ <;> rfl

theorem load_answers (f : Feed) (offset count : Nat) :
    (f.load offset count).2.stream.answers = f.stream.answers := by
  rw [load_stream, Stream.answers_readExactAt]

theorem load_buffer {f : Feed} {offset count : Nat} {bytes : Array UInt8}
    (h : f.stream.answers offset count = .ok bytes) : (f.load offset count).2.buffer = bytes := by
  unfold Stream.answers Stream.readExactAt Stream.readExact at h
  unfold load
  rcases hs : f.stream.seek (.start offset) with ⟨fault | position, s⟩
  · simp [hs] at h
  · simp only [hs] at h ⊢
    rcases hf : s.fill count #[] with ⟨got, fault | _, s'⟩
    · simp only [hf] at h
      split at h
      · cases h
      next hc =>
        cases h
        simp only
        rw [Array.extract_empty_of_stop_le_start (by omega), Array.append_empty]
    · simp [hf] at h

theorem load_cases (f : Feed) (offset count : Nat) : ∃ f' : Feed,
    f'.stream.answers = f.stream.answers ∧
      ((∃ fault, f.stream.answers offset count = .error fault ∧
        f.load offset count = (.error fault, f')) ∨
      (f.stream.answers offset count = .ok f'.buffer ∧ f.load offset count = (.ok (), f'))) := by
  have hfst := f.load_fst offset count
  refine ⟨(f.load offset count).2, f.load_answers offset count, ?_⟩
  cases ha : f.stream.answers offset count with
  | error fault =>
    rw [ha] at hfst
    exact .inl ⟨fault, rfl, Prod.ext hfst rfl⟩
  | ok bytes =>
    rw [ha] at hfst
    exact .inr ⟨by rw [load_buffer ha], Prod.ext hfst rfl⟩

end Feed

end ImageRegion
