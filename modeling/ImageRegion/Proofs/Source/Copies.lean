import ImageRegion.Proofs.Source.Reach

namespace ImageRegion

namespace Content

/-- The content is the bytes and no more, and the picture is what decoders find in them. -/
structure Copies (c : Content) (bytes : Array UInt8) (picture : Option Picture) : Prop where
  size : c.size = bytes.size
  byteAt : ∀ i < bytes.size, c.byteAt i = bytes.getD i 0
  fault : ∀ i, c.fault i = none
  picture : c.picture = picture

variable {c c' : Content} {bytes : Array UInt8} {picture : Option Picture}

theorem copies_ofBytes (bytes : Array UInt8) (picture : Option Picture) :
    Copies { ofBytes bytes with picture } bytes picture :=
  ⟨rfl, fun _ _ => rfl, fun _ => rfl, rfl⟩

theorem reach_of_unfaulted {start count : Nat}
    (hfault : ∀ i, start ≤ i → i < c.size → c.fault i = none) :
    c.reach start count = start + min count (c.size - start) := by
  have hle := c.reach_le start count
  have hge := c.le_reach start count
  apply Nat.le_antisymm
  · refine Nat.le_of_not_lt fun hpast => ?_
    -- The last byte that was read would lie behind the end.
    have hbefore : c.reach start count - 1 < c.reach start count := by omega
    have hlast : c.Readable (c.reach start count - 1) :=
      readable_of_lt_reach (by omega) hbefore
    have hsize := hlast.1
    omega
  · refine Nat.le_of_not_lt fun hshort => ?_
    have hinside : c.reach start count < c.size := by omega
    exact not_readable_reach (by omega) ⟨hinside, hfault _ hge hinside⟩

theorem fault_of_failsAtEnd {i : Nat} (h : c.failsAtEnd = false) (hi : i ≤ c.size) :
    c.fault i = none := by
  have hstopped : c.fault (c.reach 0 c.size) = none :=
    Option.not_isSome_iff_eq_none.mp (Bool.eq_false_iff.mp h)
  have hend : c.size ≤ c.reach 0 c.size := by
    refine Nat.le_of_not_lt fun hshort => ?_
    exact not_readable_reach (by omega) ⟨hshort, hstopped⟩
  rcases Nat.eq_or_lt_of_le hi with rfl | hinside
  · rwa [Nat.le_antisymm (reach_le_size (Nat.zero_le _)) hend] at hstopped
  · exact (c.isClear_reach 0 c.size i (Nat.zero_le i) (Nat.lt_of_lt_of_le hinside hend)).2

theorem slice_min (h : ∀ i < bytes.size, c.byteAt i = bytes.getD i 0) (start count : Nat) :
    c.slice start (min count (bytes.size - start)) = bytes.extract start (start + count) := by
  apply Array.ext
  · rw [size_slice, Array.size_extract]
    omega
  · intro i hi hi'
    rw [size_slice] at hi
    simp only [Content.slice, Array.getElem_ofFn, Array.getElem_extract]
    rw [h _ (by omega), Array.getD_eq_getD_getElem?, Array.getElem?_eq_getElem (by omega),
      Option.getD_some]

theorem slice_eq_extract (h : ∀ i < bytes.size, c.byteAt i = bytes.getD i 0) {start count : Nat}
    (hstop : count ≤ bytes.size - start) :
    c.slice start count = bytes.extract start (start + count) := by
  rw [← slice_min h, Nat.min_eq_left hstop]

theorem slice_eq_all (h : ∀ i < bytes.size, c.byteAt i = bytes.getD i 0) :
    c.slice 0 bytes.size = bytes := by
  have hwhole : bytes.size ≤ bytes.size - 0 := Nat.le_refl _
  rw [slice_eq_extract h hwhole, Nat.zero_add, Array.extract_size]

theorem Copies.reach (h : c.Copies bytes picture) (start count : Nat) :
    c.reach start count = start + min count (bytes.size - start) := by
  rw [reach_of_unfaulted fun i _ _ => h.fault i, h.size]

theorem Copies.decoded (h : c.Copies bytes picture) (h' : c'.Copies bytes picture)
    (e : Encoding) : c.decoded e = c'.decoded e := by
  unfold Content.decoded failsAtEnd
  simp only [h.reach, h'.reach, h.picture, h'.picture, h.fault, h'.fault]

end Content

namespace Stream

variable {s t : Stream} {offset count : Nat} {bytes : Array UInt8} {picture : Option Picture}

def Sound (s : Stream) : Prop :=
  ∀ i, s.position ≤ i → i ≤ max s.position s.content.size → s.content.fault i = none

theorem Sound.turned (h : s.Sound) {p : Nat} (hfirst : s.position ≤ p)
    (hlast : p ≤ max s.position s.content.size) : (s.turned p).Sound := by
  intro i hi hi'
  have hbehind : s.position ≤ i := Nat.le_trans hfirst hi
  exact h i hbehind (Nat.le_trans hi' (Nat.max_le.mpr ⟨hlast, Nat.le_max_right _ _⟩))

theorem read_of_sound (hsound : s.Sound) (hp : s.medium.Permits (s.position + count)) :
    ∃ n, n = min (s.wanted count) (s.content.size - s.position) ∧
      s.read count = (.ok (s.content.slice s.position n), s.turned (s.position + n)) := by
  have hread : s.content.read s.position (s.wanted count) =
      .ok (s.content.slice s.position (min (s.wanted count) (s.content.size - s.position))) := by
    have hreach : s.content.reach s.position (s.wanted count) =
        s.position + min (s.wanted count) (s.content.size - s.position) :=
      Content.reach_of_unfaulted fun i hi hlt => hsound i hi (by omega)
    unfold Content.read
    rw [hsound s.position (Nat.le_refl _) (Nat.le_max_left _ _), ite_self, hreach,
      Nat.add_sub_cancel_left]
  refine ⟨_, rfl, ?_⟩
  unfold read
  rw [readRefusal?_eq_none.mpr hp, hread]
  simp only [Content.size_slice]
  rfl

theorem fill_of_sound (hsound : s.Sound) (hp : s.medium.Permits (s.position + count))
    (got : Array UInt8) : s.fill count got =
      (got ++ s.content.slice s.position (min count (s.content.size - s.position)), none,
        s.turned (s.position + min count (s.content.size - s.position))) := by
  fun_induction fill s count got with
  | case1 s got =>
    rw [Nat.zero_min, Content.slice_zero, Array.append_empty]
    rfl
  | case2 s count got hc fault s' hr =>
    obtain ⟨n, _, hread⟩ := read_of_sound hsound hp
    rw [hr] at hread
    simp at hread
  | case3 s count got hc bytes s' hr hb =>
    obtain ⟨n, hn, hread⟩ := read_of_sound hsound hp
    rw [hr] at hread
    simp only [Prod.mk.injEq, Except.ok.injEq] at hread
    obtain ⟨rfl, rfl⟩ := hread
    rw [Content.size_slice] at hb
    have hwanted := wanted_pos (Nat.pos_of_ne_zero hc) s
    have hrest : min count (s.content.size - s.position) = 0 := by omega
    rw [hrest, hb, Content.slice_zero, Array.append_empty]
  | case4 s count got hc bytes s' hr hb ih =>
    obtain ⟨n, hn, hread⟩ := read_of_sound hsound hp
    rw [hr] at hread
    simp only [Prod.mk.injEq, Except.ok.injEq] at hread
    obtain ⟨rfl, rfl⟩ := hread
    have hle := s.wanted_le count
    rw [Content.size_slice] at ih ⊢
    have hstop : (s.turned (s.position + n)).position + (count - n) = s.position + count := by
      simp only [turned]
      omega
    have hrest : (s.turned (s.position + n)).Sound := hsound.turned (by omega) (by omega)
    have hjoined := s.content.slice_add s.position n
      (min (count - n) (s.content.size - (s.position + n)))
    have hall : n + min (count - n) (s.content.size - (s.position + n)) =
        min count (s.content.size - s.position) := by omega
    rw [hall] at hjoined
    rw [hstop] at ih
    rw [ih hrest hp, Array.append_assoc, ← hall, hall, hjoined]
    simp only [turned, Nat.add_assoc, hall]

theorem sound_of_copies (hc : s.content.Copies bytes picture) : s.Sound :=
  fun i _ _ => hc.fault i

theorem fill_of_copies (hc : s.content.Copies bytes picture)
    (hp : s.medium.Permits (s.position + count)) :
    s.fill count #[] = (bytes.extract s.position (s.position + count), none,
      s.turned (s.position + min count (bytes.size - s.position))) := by
  rw [fill_of_sound (sound_of_copies hc) hp, hc.size, Content.slice_min hc.byteAt,
    Array.empty_append]

theorem readExact_of_copies (hc : s.content.Copies bytes picture)
    (hp : s.medium.Permits (s.position + count)) :
    s.readExact count =
      (if bytes.size - s.position < count then .error .endOfData
        else .ok (bytes.extract s.position (s.position + count)),
        s.turned (s.position + min count (bytes.size - s.position))) := by
  have hshort : (bytes.extract s.position (s.position + count)).size < count ↔
      bytes.size - s.position < count := by
    rw [Array.size_extract]
    omega
  rw [readExact, fill_of_copies hc hp]
  simp only [hshort]

theorem readToEnd_of_copies (hc : s.content.Copies bytes picture)
    (hp : s.medium.Permits (s.position + (bytes.size - s.position + lookAhead))) :
    s.readToEnd = (.ok (bytes.extract s.position bytes.size),
      s.turned (s.position + (bytes.size - s.position))) := by
  have hremaining : s.remaining = bytes.size - s.position := by
    rw [remaining, hc.reach, hc.size, Nat.min_self, Nat.add_sub_cancel_left]
  have hall : bytes.extract s.position (s.position + (bytes.size - s.position + lookAhead)) =
      bytes.extract s.position bytes.size := by
    rw [Array.extract_eq_extract_right]
    omega
  rw [readToEnd, hremaining, fill_of_copies hc hp, hall, Nat.min_eq_right (Nat.le_add_right _ _)]

structure Mirrors (s : Stream) (bytes : Array UInt8) (picture : Option Picture) : Prop where
  content : s.content.Copies bytes picture
  length : s.length = bytes.size
  seekFault : s.seekFault = none
  permits : ∀ stop < fileLimit, s.medium.Permits stop

theorem Mirrors.turned (h : s.Mirrors bytes picture) (position : Nat) :
    (s.turned position).Mirrors bytes picture := ⟨h.content, h.length, h.seekFault, h.permits⟩

theorem Mirrors.answers (h : s.Mirrors bytes picture) (hstop : offset + count < fileLimit) :
    s.answers offset count =
      if bytes.size - offset < count then .error .endOfData
      else .ok (bytes.extract offset (offset + count)) := by
  have hword : offset < 0x10000000000000000 := by
    simp only [fileLimit] at hstop
    omega
  have hread := readExact_of_copies (h.turned offset).content (h.permits _ hstop)
  unfold Stream.answers readExactAt
  rw [seek_start_of_seekable h.seekFault hword]
  exact congrArg Prod.fst hread

variable {c : Content}

theorem mirrors_ofContent (hc : c.Copies bytes picture) : (ofContent c).Mirrors bytes picture :=
  ⟨hc, hc.size, rfl, fun _ _ => trivial⟩

theorem mirrors_ofCopy (hpicture : c.picture = picture) :
    (ofCopy c bytes).Mirrors bytes picture := by
  rw [← hpicture]
  exact mirrors_ofContent (Content.copies_ofBytes bytes _)

theorem ofAsset_of_reaches (hfits : bytes.size < Allocator.addressable) (hstart : s.position = 0)
    (hreaches : s.Reaches ⟨0, bytes.size⟩)
    (hbytes : ∀ i < bytes.size, s.content.byteAt i = bytes.getD i 0) :
    ofAsset s bytes.size = .ok (ofCopy s.content bytes) := by
  have hspan : (⟨0, bytes.size⟩ : Span) = ⟨s.position, s.position + bytes.size⟩ := by
    rw [hstart, Nat.zero_add]
  have hfill := fill_of_reaches (.inr (hspan ▸ hreaches)) #[]
  unfold ofAsset
  rw [if_neg (Nat.not_le_of_lt hfits), hfill, hstart, Content.slice_eq_all hbytes,
    Array.empty_append]
  exact if_neg (Nat.lt_irrefl _)

theorem measured_of_seekable (hlength : s.length < 0x10000000000000000)
    (hseek : s.seekFault = none) : s.measured = .ok (s.turned 0) := by
  have hend : s.seek (.fromEnd 0) = (.ok s.length, s.turned s.length) := by
    unfold seek positionOf
    simp only [hseek, Int.add_zero]
    rw [if_pos (by omega), Int.toNat_natCast, ← hseek]
    rfl
  have hback : (s.turned s.length).seek (.start (0 : Nat)) = (.ok 0, s.turned 0) :=
    seek_start_of_seekable hseek (by decide)
  unfold measured
  rw [hend]
  dsimp only
  rw [hback]
  rfl

theorem ofAsset_of_short {declared : Nat} (hfits : declared < Allocator.addressable)
    (hstart : s.position = 0) (hends : s.content.failsAtEnd = false)
    (hp : s.medium.Permits declared) (hshort : s.content.size < declared) :
    ofAsset s declared = .error (.sourceUnreadable (.shortAsset s.content.size declared)) := by
  have hsound : s.Sound := fun i _ hi => Content.fault_of_failsAtEnd hends (by omega)
  have hpast : s.position + declared = declared := by
    rw [hstart, Nat.zero_add]
  have hfill := fill_of_sound hsound (hpast ▸ hp) #[]
  have hend : min declared (s.content.size - 0) = s.content.size := by omega
  unfold ofAsset
  rw [if_neg (Nat.not_le_of_lt hfits), hfill, hstart, hend]
  simp only [Array.empty_append, Content.size_slice]
  exact if_pos hshort

end Stream

/-- The supply brings the bytes, and the picture that decoders find in them: memory that holds
them, a reader that ends with them, an asset that declares so many and may be longer, a file of
them, or a reader that can be moved about in them. -/
inductive Supply.Brings (bytes : Array UInt8) (picture : Option Picture) : Supply → Prop
  | bytes {c : Content} (hc : c.Copies bytes picture) : Brings bytes picture (.bytes c)
  | drained {r : Stream} (hc : r.content.Copies bytes picture) (hstart : r.position = 0)
    (hpermits : r.medium.Permits (bytes.size + Stream.lookAhead)) :
    Brings bytes picture (.drained r)
  | asset {a : Stream} (hfits : bytes.size < Allocator.addressable) (hstart : a.position = 0)
    (hreaches : a.Reaches ⟨0, bytes.size⟩)
    (hbytes : ∀ i < bytes.size, a.content.byteAt i = bytes.getD i 0)
    (hpicture : a.content.picture = picture) : Brings bytes picture (.asset a bytes.size)
  | file {f : File} (hc : f.content.Copies bytes picture) (hreadable : f.isReadable = true) :
    Brings bytes picture (.file f)
  | held {r : Stream} (hc : r.content.Copies bytes picture) (hlength : r.length = bytes.size)
    (hseek : r.seekFault = none)
    (hpermits : ∀ stop < Stream.fileLimit, r.medium.Permits stop) : Brings bytes picture (.held r)

variable {bytes : Array UInt8} {picture : Option Picture} {supply : Supply}

theorem Supply.Brings.stream (h : supply.Brings bytes picture)
    (hsize : bytes.size < Stream.fileLimit) :
    ∃ s, supply.stream = .ok s ∧ s.Mirrors bytes picture := by
  cases h with
  | bytes hc => exact ⟨_, rfl, Stream.mirrors_ofContent hc⟩
  | @drained r hc hstart hpermits =>
    have hpast : r.position + (bytes.size - r.position + Stream.lookAhead) =
        bytes.size + Stream.lookAhead := by
      rw [hstart, Nat.zero_add, Nat.sub_zero]
    have hread := Stream.readToEnd_of_copies hc (hpast ▸ hpermits)
    refine ⟨_, ?_, Stream.mirrors_ofCopy hc.picture⟩
    rw [Supply.stream, Stream.ofReader, hread, hstart, Array.extract_size]
  | @asset a hfits hstart hreaches hbytes hpicture =>
    exact ⟨_, Stream.ofAsset_of_reaches hfits hstart hreaches hbytes,
      Stream.mirrors_ofCopy hpicture⟩
  | @file f hc hreadable =>
    exact ⟨_, rfl, hc, hc.size, rfl, fun _ hstop => ⟨hreadable, hstop⟩⟩
  | @held r hc hlength hseek hpermits =>
    have hword : r.length < 0x10000000000000000 := by
      rw [hlength]
      exact Nat.lt_trans hsize (by decide)
    exact ⟨_, Stream.measured_of_seekable hword hseek, hc, hlength, hseek, hpermits⟩

end ImageRegion
