import ImageRegion.Proofs.Session.Owned
import ImageRegion.Session.Decoding
import ImageRegion.Session.Opening

namespace ImageRegion

namespace Session

/-- On the way from `s` to `t` streams were given away, and others were released. -/
structure Moves (mark : Stream → Bool) (s t : Session) (given gone : List Stream) : Prop where
  tidy : t.Tidy
  released : t.released = gone ++ s.released
  balance : t.owned.countP mark + gone.countP mark = s.owned.countP mark + given.countP mark

variable {mark : Stream → Bool} {s t u : Session} {given gone : List Stream} {c : Catalogue}
  {shelf : Shelf}

theorem Moves.of_count (htidy : t.Tidy) (hreleased : t.released = gone ++ s.released)
    (hbalance : t.count mark + gone.countP mark = s.count mark + given.countP mark) :
    s.Moves mark t given gone := by
  refine ⟨htidy, hreleased, ?_⟩
  rw [countP_owned, countP_owned]
  exact hbalance

theorem Tidy.of_eq (h : t.Tidy) (hviewers : u.viewers = t.viewers)
    (hcatalogues : u.catalogues = t.catalogues) (hshared : u.shared = t.shared) : u.Tidy := by
  refine ⟨?_, ?_, ?_, ?_⟩
  · exact hviewers ▸ h.viewers
  · exact hcatalogues ▸ h.catalogues
  · exact hshared ▸ h.shared
  · exact hcatalogues ▸ h.named

theorem Tidy.stays (h : s.Tidy) : s.Moves mark s [] [] := ⟨h, rfl, rfl⟩

theorem Moves.of_eq (h : s.Moves mark t given gone) (hviewers : u.viewers = t.viewers)
    (hcatalogues : u.catalogues = t.catalogues) (hshared : u.shared = t.shared)
    (hreleased : u.released = t.released) : s.Moves mark u given gone := by
  refine ⟨h.tidy.of_eq hviewers hcatalogues hshared, hreleased.trans h.released, ?_⟩
  rw [owned, hviewers, hcatalogues, hshared]
  exact h.balance

theorem Moves.of_given {given' : List Stream} (h : s.Moves mark t given gone)
    (hgiven : given.countP mark = given'.countP mark) : s.Moves mark t given' gone :=
  ⟨h.tidy, h.released, hgiven ▸ h.balance⟩

theorem Moves.trans {given' gone' : List Stream} (h : s.Moves mark t given gone)
    (h' : t.Moves mark u given' gone') : s.Moves mark u (given ++ given') (gone' ++ gone) := by
  have hbalance := h.balance
  have hbalance' := h'.balance
  refine ⟨h'.tidy, ?_, ?_⟩
  · rw [h'.released, h.released, List.append_assoc]
  · rw [List.countP_append, List.countP_append]
    omega

theorem Moves.after (h' : t.Moves mark u given gone) (h : s.Moves mark t [] []) :
    s.Moves mark u given gone := by
  have htrans := h.trans h'
  rwa [List.append_nil] at htrans

theorem catalogue_of_some (hc : s.catalogue? shelf = some c) : s.catalogue shelf = c := by
  rw [Session.catalogue, hc, Option.getD_some]

theorem Tidy.catalogue (h : s.Tidy) (shelf : Shelf) : (s.catalogue shelf).keys.Nodup := by
  cases shelf with
  | shared => exact h.shared
  | named name =>
    rw [show s.catalogue (.named name) = (s.catalogues.get? name).getD .empty from rfl]
    cases hc : s.catalogues.get? name with
    | none => exact List.nodup_nil
    | some c =>
      obtain ⟨before, later, hentries, _⟩ := List.lookup_eq_some_iff.mp hc
      refine h.named (name, c) ?_
      rw [hentries]
      exact List.mem_append_right _ (List.mem_cons_self ..)

theorem Tidy.keepCatalogue (mark : Stream → Bool) (h : s.Tidy) (hc : c.keys.Nodup) (shelf : Shelf) :
    (s.keepCatalogue c shelf).Tidy ∧
      (s.keepCatalogue c shelf).count mark + (s.catalogue shelf).count mark =
        s.count mark + c.count mark := by
  cases shelf with
  | shared =>
    refine ⟨⟨h.viewers, h.catalogues, hc, h.named⟩, ?_⟩
    unfold count
    show Names.weight _ s.viewers.entries + c.count mark + Names.weight _ s.catalogues.entries +
      s.shared.count mark = _
    omega
  | named name =>
    refine ⟨⟨h.viewers, h.catalogues.keep name c, h.shared, ?_⟩, ?_⟩
    · intro entry hentry
      rcases List.mem_cons.mp hentry with rfl | hentry
      · exact hc
      · exact h.named entry (List.mem_filter.mp hentry).1
    · have hkept : Names.weight (Catalogue.count mark) (s.catalogues.keep name c).entries +
          (s.catalogues.get? name).elim 0 (Catalogue.count mark) = _ :=
        h.catalogues.weight_keep name c
      have hbefore : (s.catalogue (.named name)).count mark =
          (s.catalogues.get? name).elim 0 (Catalogue.count mark) := by
        rw [show s.catalogue (.named name) = (s.catalogues.get? name).getD .empty from rfl]
        cases s.catalogues.get? name <;> rfl
      rw [hbefore]
      unfold count Session.keepCatalogue
      dsimp only
      omega

theorem Tidy.moves_keepCatalogue (h : s.Tidy) (hc : c.keys.Nodup)
    (hcount : c.count mark = (s.catalogue shelf).count mark) :
    s.Moves mark (s.keepCatalogue c shelf) [] [] := by
  obtain ⟨htidy, hbalance⟩ := h.keepCatalogue mark hc shelf
  refine .of_count htidy ?_ ?_
  · cases shelf <;> rfl
  · simp only [List.countP_nil]
    omega

theorem countP_stream (v : Viewer) : [v.stream].countP mark = v.count mark := by
  simp only [List.countP_cons, List.countP_nil, Nat.zero_add]
  rfl

theorem countP_stream? (v? : Option Viewer) :
    (v?.map Viewer.stream).toList.countP mark = v?.elim 0 (Viewer.count mark) := by
  cases v? with
  | none => rfl
  | some v => exact countP_stream v

theorem Tidy.moves_keepViewer (h : s.Tidy) (name : String) (v : Viewer) :
    s.Moves mark (s.keepViewer name v) [v.stream]
      ((s.viewers.get? name).map Viewer.stream).toList := by
  refine .of_count ⟨h.viewers.keep name v, h.catalogues, h.shared, h.named⟩ rfl ?_
  have hkept : Names.weight (Viewer.count mark) (s.viewers.keep name v).entries +
      (s.viewers.get? name).elim 0 (Viewer.count mark) = _ := h.viewers.weight_keep name v
  rw [countP_stream?, countP_stream]
  unfold count keepViewer release
  dsimp only
  omega

theorem Tidy.dropViewer (mark : Stream → Bool) {name : String} {v : Viewer} (h : s.Tidy)
    (hv : s.viewers.get? name = some v) : (s.dropViewer name).Tidy ∧
      (s.dropViewer name).count mark + v.count mark = s.count mark := by
  refine ⟨⟨h.viewers.erase name, h.catalogues, h.shared, h.named⟩, ?_⟩
  have herased : Names.weight (Viewer.count mark) (s.viewers.erase name).entries +
      (s.viewers.get? name).elim 0 (Viewer.count mark) = _ := h.viewers.weight_erase name
  rw [hv, Option.elim_some] at herased
  unfold count Session.dropViewer
  dsimp only
  omega

theorem Tidy.moves_close {name : String} {v : Viewer} (h : s.Tidy)
    (hv : s.viewers.get? name = some v) :
    s.Moves mark ((s.dropViewer name).release v.stream) [] [v.stream] := by
  obtain ⟨htidy, hcount⟩ := h.dropViewer mark hv
  refine .of_count (htidy.of_eq rfl rfl rfl) rfl ?_
  rw [countP_stream]
  exact hcount

theorem Tidy.moves_insertEntry (h : s.Tidy) (shelf : Shelf) (keepAs : String) (v : Viewer) :
    s.Moves mark (s.insertEntry shelf keepAs v).2.2 [v.stream]
      (((s.catalogue shelf).get? ⟨(s.catalogue shelf).next⟩).map Viewer.stream).toList := by
  have hkeys := h.catalogue shelf
  obtain ⟨htidy, hkept⟩ :=
    h.keepCatalogue mark (Catalogue.nodup_keys_insert hkeys v) shelf
  have hinserted : _ + ((s.catalogue shelf).get? ⟨(s.catalogue shelf).next⟩).elim 0
      (Viewer.count mark) = _ := Catalogue.count_insert hkeys v
  refine .of_count (htidy.of_eq rfl rfl rfl) ?_ ?_
  · cases shelf <;> rfl
  · rw [countP_stream?, countP_stream]
    change (s.keepCatalogue ((s.catalogue shelf).insert v).2 shelf).count mark + _ = _
    omega

theorem Tidy.moves_releaseEntry (mark : Stream → Bool) {handle : Handle} {v : Viewer} (h : s.Tidy)
    (hv : (s.catalogue shelf).get? handle = some v) :
    ∃ events t, s.releaseEntry shelf handle = .ok (events, t) ∧ s.Moves mark t [] [v.stream] := by
  let c : Catalogue :=
    ⟨(s.catalogue shelf).next, Catalogue.remove handle (s.catalogue shelf).entries⟩
  have hkeys := h.catalogue shelf
  have hreleased : (s.catalogue shelf).release handle = .ok (v, c) := by
    rw [Catalogue.release, hv]
  obtain ⟨htidy, hkept⟩ :=
    h.keepCatalogue mark (c := c) (Catalogue.nodup_keys_remove hkeys handle) shelf
  have hremoved : c.count mark + v.count mark = _ := Catalogue.count_removed hkeys hv
  refine ⟨[.handleReleased handle], (s.keepCatalogue c shelf).release v.stream, ?_,
    .of_count (htidy.of_eq rfl rfl rfl) ?_ ?_⟩
  · rw [releaseEntry, hreleased]
    rfl
  · cases shelf <;> rfl
  · rw [countP_stream]
    change (s.keepCatalogue c shelf).count mark + _ = _
    simp only [List.countP_nil]
    omega

theorem Tidy.moves_keepFile (hmark : Stream.IsMark mark) (h : s.Tidy) (name : String)
    (file : File) : s.Moves mark (s.keepFile name file) [] [] := by
  refine .of_count ⟨h.viewers.map _, h.catalogues.map _, ?_, ?_⟩ rfl ?_
  · exact (Catalogue.keys_follow s.shared file).symm ▸ h.shared
  · intro entry hentry
    obtain ⟨before, hbefore, rfl⟩ := List.mem_map.mp hentry
    exact (Catalogue.keys_follow before.2 file).symm ▸ h.named before hbefore
  · have hviewers : Names.weight (Viewer.count mark) (s.viewers.map (·.follow file)).entries =
        Names.weight (Viewer.count mark) s.viewers.entries :=
      Names.weight_map (Viewer.follow · file) (Viewer.count_follow hmark · file) _
    have hcatalogues : Names.weight (Catalogue.count mark)
        (s.catalogues.map (·.follow file)).entries =
          Names.weight (Catalogue.count mark) s.catalogues.entries :=
      Names.weight_map (Catalogue.follow · file) (Catalogue.count_follow hmark · file) _
    unfold count keepFile
    dsimp only
    rw [hviewers, hcatalogues, s.shared.count_follow hmark file]

def given? (s : Session) (order : Order) : Option Stream :=
  (order.supply.numbered (s.configure order).2.unused).handed?

section Opening

variable {way : (Stream → Stream) → Stream → Config → Attempt}

def OnStream (way : (Stream → Stream) → Stream → Config → Attempt) : Prop :=
  ∀ between stream config v, (way between stream config).result = .ok v →
    ∃ first last, v.stream = (between (stream.turned first)).turned last

theorem onStream_plain : OnStream Attempt.plain :=
  fun _ _ _ _ h => Viewer.openChanging_turns h

theorem onStream_inStages (width height : Option Nat) :
    OnStream (Attempt.inStages width height) := by
  intro between stream config v h
  unfold Attempt.inStages at h
  split at h
  · cases h
  next probe s' hprobe =>
    obtain ⟨first, rfl⟩ := Probe.ofStream_turns hprobe
    split at h
    · cases h
    next image event hindex =>
      cases h
      obtain ⟨last, hlast⟩ := Probe.index_turns hindex
      exact ⟨first, last, hlast⟩

theorem Tidy.moves_configure (h : s.Tidy) (order : Order) :
    s.Moves mark (s.configure order).2 [] [] := by
  unfold configure
  cases order.account with
  | none => exact h.stays
  | some account => exact h.stays.of_eq rfl rfl rfl rfl

theorem supply_fst (s : Session) (opened : Option String) (order : Order) :
    (s.supply opened order).1 = order.supply.numbered s.unused := by
  unfold supply
  cases opened with
  | none => rfl
  | some name =>
    dsimp only
    cases (order.supply.numbered s.unused).file? <;> rfl

theorem Tidy.moves_supply (h : s.Tidy) (opened : Option String) (order : Order) :
    s.Moves mark (s.supply opened order).2 [] [] := by
  unfold supply
  cases opened with
  | none => exact h.stays.of_eq rfl rfl rfl rfl
  | some name =>
    dsimp only
    cases (order.supply.numbered s.unused).file? with
    | none => exact h.stays.of_eq rfl rfl rfl rfl
    | some file => exact h.stays.of_eq rfl rfl rfl rfl

theorem Tidy.moves_attempt (hmark : Stream.IsMark mark) (hway : OnStream way) (h : s.Tidy)
    (opened : Option String) (order : Order) :
    (∃ failure, (s.attempt opened order way).1.result = .error failure ∧
      s.Moves mark (s.attempt opened order way).2 (s.given? order).toList
        (s.given? order).toList) ∨
    ∃ v, (s.attempt opened order way).1.result = .ok v ∧
      s.Moves mark (s.attempt opened order way).2 [] [] ∧
      ((∀ t, mark (order.between t) = mark t) →
        [v.stream].countP mark = (s.given? order).toList.countP mark) := by
  have hconfigured : s.Moves mark (s.configure order).2 [] [] := h.moves_configure order
  have hsupplied := (hconfigured.tidy.moves_supply opened order).after hconfigured
  have hsupply := (s.configure order).2.supply_fst opened order
  unfold attempt given?
  dsimp only
  rw [hsupply]
  split
  next failure hresult =>
    refine .inl ⟨failure, hresult, hsupplied.tidy.of_eq rfl rfl rfl, ?_, ?_⟩
    · exact congrArg _ hsupplied.released
    · exact congrArg (· + _) hsupplied.balance
  next v hresult =>
    -- Only here does it matter what happened to the stream on the way to its image.
    refine .inr ⟨v, hresult, hsupplied, fun hbetween => ?_⟩
    unfold Supply.handed?
    split at hresult
    · cases hresult
    next stream hstream =>
      obtain ⟨first, last, hturned⟩ := hway _ _ _ _ hresult
      rw [hstream, hturned]
      simp only [Option.toList_some, List.countP_cons, hmark.turned, hbetween]

theorem Tidy.moves_openImage (hmark : Stream.IsMark mark) (hway : OnStream way) (h : s.Tidy)
    (name : String) (order : Order) :
    (∀ failure, (s.openImage name order way).1.result = .error failure →
      s.Moves mark (s.openImage name order way).2 (s.given? order).toList
        (s.given? order).toList) ∧
    ((∀ t, mark (order.between t) = mark t) →
      ∃ gone, s.Moves mark (s.openImage name order way).2 (s.given? order).toList gone) := by
  unfold openImage
  rcases h.moves_attempt hmark hway (some name) order with ⟨failure, hresult, hmoves⟩ |
    ⟨v, hresult, hmoves, hcount⟩ <;> simp only [hresult]
  · exact ⟨fun _ _ => hmoves, fun _ => ⟨_, hmoves⟩⟩
  · refine ⟨nofun, fun hbetween => ?_⟩
    have hkept := (hmoves.tidy.moves_keepViewer name v).after hmoves
    exact ⟨_, hkept.of_given (hcount hbetween)⟩

end Opening

theorem Tidy.moves_again {name : String} {v w : Viewer} (h : s.Tidy)
    (hv : s.viewers.get? name = some v) (hw : w.count mark = v.count mark) :
    s.Moves mark { s with viewers := s.viewers.keep name w } [] [] := by
  refine .of_count ⟨h.viewers.keep name w, h.catalogues, h.shared, h.named⟩ rfl ?_
  have hkept : Names.weight (Viewer.count mark) (s.viewers.keep name w).entries +
      (s.viewers.get? name).elim 0 (Viewer.count mark) = _ := h.viewers.weight_keep name w
  rw [hv, Option.elim_some, hw] at hkept
  unfold count
  dsimp only
  omega

section Decoding

variable (hmark : Stream.IsMark mark) (h : s.Tidy)

include hmark h

theorem Tidy.moves_decodeFresh {subject : Subject} {rect : Rect} {o : Options} {stop : Stop}
    {d : Decoding (Bitmap × Region)} (hd : s.decodeFresh subject rect o stop = some (d, t)) :
    s.Moves mark t [] [] := by
  cases subject with
  | viewer name =>
    obtain ⟨v, hv, hd⟩ := Option.bind_eq_some_iff.mp hd
    cases hd
    exact h.moves_again hv (v.count_decode hmark rect o stop)
  | entry shelf grip =>
    obtain ⟨c, hc, hd⟩ := Option.bind_eq_some_iff.mp hd
    obtain ⟨handle, _, hd⟩ := Option.bind_eq_some_iff.mp hd
    cases hd
    obtain rfl := catalogue_of_some hc
    obtain ⟨hcount, hkeys⟩ :=
      Catalogue.count_decode hmark (h.catalogue shelf) handle rect o stop
    exact h.moves_keepCatalogue hkeys hcount

theorem Tidy.moves_decodeInto {subject : Subject} {rect : Rect} {o : Options} {stop : Stop}
    {target after : Bitmap} {d : Decoding Region}
    (hd : s.decodeInto subject rect o target stop = some (d, after, t)) : s.Moves mark t [] [] := by
  cases subject with
  | viewer name =>
    obtain ⟨v, hv, hd⟩ := Option.bind_eq_some_iff.mp hd
    cases hd
    exact h.moves_again hv (v.count_decodeInto hmark rect o target stop)
  | entry shelf grip =>
    obtain ⟨c, hc, hd⟩ := Option.bind_eq_some_iff.mp hd
    obtain ⟨handle, _, hd⟩ := Option.bind_eq_some_iff.mp hd
    cases hd
    obtain rfl := catalogue_of_some hc
    obtain ⟨hcount, hkeys⟩ :=
      Catalogue.count_decodeInto hmark (h.catalogue shelf) handle rect o target stop
    exact h.moves_keepCatalogue hkeys hcount

theorem Tidy.moves_perform {job : Job} {stop : Stop} {report : Report} {events : List Event}
    (hp : s.perform job stop = some (report, events, t)) : s.Moves mark t [] [] := by
  unfold perform at hp
  split at hp
  · obtain ⟨⟨d, s'⟩, hd, hp⟩ := Option.bind_eq_some_iff.mp hp
    have hdecoded := h.moves_decodeFresh hmark hd
    cases hp
    split <;> exact hdecoded.of_eq rfl rfl rfl rfl
  · obtain ⟨b, _, hp⟩ := Option.bind_eq_some_iff.mp hp
    obtain ⟨⟨d, after, s'⟩, hd, hp⟩ := Option.bind_eq_some_iff.mp hp
    have hdecoded := h.moves_decodeInto hmark hd
    cases hp
    exact hdecoded.of_eq rfl rfl rfl rfl

theorem Tidy.moves_decode {job : Job} {report : Report} {events : List Event}
    (hd : s.decode job = some (report, events, t)) : s.Moves mark t [] [] := by
  obtain ⟨flag, _, hd⟩ := Option.bind_eq_some_iff.mp hd
  obtain ⟨⟨report', events', s'⟩, hp, hd⟩ := Option.bind_eq_some_iff.mp hd
  have hperformed := h.moves_perform hmark hp
  cases flag with
  | none =>
    cases hd
    exact hperformed
  | some flag =>
    cases hd
    split
    · exact hperformed.of_eq rfl rfl rfl rfl
    · exact hperformed

end Decoding

end Session

end ImageRegion
