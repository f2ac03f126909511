import ImageRegion.Proofs.History
import ImageRegion.Proofs.Image.Layout
import ImageRegion.Proofs.Registry.Calls
import ImageRegion.Proofs.Session.Owners
import ImageRegion.Proofs.Source.Copies
import ImageRegion.Proofs.Stitching

namespace ImageRegion

variable {s t : Stream} {bytes : Array UInt8} {picture : Option Picture} {config : Config}

theorem Stream.Mirrors.readExactAt_alike (hs : s.Mirrors bytes picture)
    (ht : t.Mirrors bytes picture) {offset count : Nat} (hstop : offset + count < fileLimit) :
    ∃ r p q, s.readExactAt offset count = (r, s.turned p) ∧
      t.readExactAt offset count = (r, t.turned q) := by
  obtain ⟨p, hp⟩ := s.readExactAt_turns offset count
  obtain ⟨q, hq⟩ := t.readExactAt_turns offset count
  have hanswers : s.answers offset count = t.answers offset count :=
    (hs.answers hstop).trans (ht.answers hstop).symm
  exact ⟨s.answers offset count, p, q, Prod.ext rfl hp, Prod.ext hanswers.symm hq⟩

theorem Probe.ofStream_alike (hs : s.Mirrors bytes picture) (ht : t.Mirrors bytes picture) :
    ∃ r p q, ofStream s = (r, s.turned p) ∧ ofStream t = (r, t.turned q) := by
  have hstop : 0 + min s.length Encoding.magicLength < Stream.fileLimit := by
    have hmagic : Encoding.magicLength < Stream.fileLimit := by decide
    omega
  obtain ⟨r, p, q, hp, hq⟩ := hs.readExactAt_alike ht hstop
  unfold ofStream
  rw [ht.length, ← hs.length, hp, hq]
  cases r with
  | error fault => exact ⟨_, p, q, rfl, rfl⟩
  | ok bytes =>
    dsimp only
    cases Encoding.detect? bytes.toList with
    | none => exact ⟨_, p, q, rfl, rfl⟩
    | some encoding => exact ⟨_, p, q, rfl, rfl⟩

def Stream.IndexedAlike {ε α : Type} (s t : Stream) (x y : Except ε (α × Stream × Event)) : Prop :=
  (∃ e, x = .error e ∧ y = .error e) ∨
    ∃ a p q event, x = .ok (a, s.turned p, event) ∧ y = .ok (a, t.turned q, event)

namespace Intake

variable {α : Type} {k : Intake α}

theorem finish_alike (hlength : s.length = t.length) (p q : Nat) (limits : Limits)
    (parsed : Except Flaw α) :
    s.IndexedAlike t (k.finish (s.turned p) limits parsed)
      (k.finish (t.turned q) limits parsed) := by
  cases parsed with
  | error flaw => exact .inl ⟨_, rfl, rfl⟩
  | ok h =>
    unfold finish
    dsimp only
    cases Limits.raise (limits.checkImage (k.width h) (k.height h)) with
    | error e => exact .inl ⟨e, rfl, rfl⟩
    | ok _ =>
      change s.IndexedAlike t (ite ((s.turned p).length < _) _ _)
        (ite ((t.turned q).length < _) _ _)
      rw [show (s.turned p).length = (t.turned q).length from hlength]
      by_cases hshort : (t.turned q).length < k.needed h
      · rw [if_pos hshort, if_pos hshort]
        exact .inl ⟨_, rfl, rfl⟩
      · rw [if_neg hshort, if_neg hshort]
        exact .inr ⟨h, p, q, _, rfl, rfl⟩

theorem Serves.build_alike (hk : k.Serves) (hs : s.Mirrors bytes picture)
    (ht : t.Mirrors bytes picture) (hreach : k.reach s.length < Stream.fileLimit)
    (config : Config) :
    s.IndexedAlike t (Index.build k.encoding s config) (Index.build k.encoding t config) := by
  have hstop : 0 + k.reach s.length < Stream.fileLimit := by omega
  have hlength : s.length = t.length := hs.length.trans ht.length.symm
  have hstream : s.IndexedAlike t (k.ofStream s config.limits) (k.ofStream t config.limits) := by
    obtain ⟨r, p, q, hp, hq⟩ := hs.readExactAt_alike ht hstop
    unfold ofStream
    rw [← hlength, hp, hq]
    cases r with
    | error fault => exact .inl ⟨_, rfl, rfl⟩
    | ok bytes => exact finish_alike hlength p q config.limits _
  rw [hk s config, hk t config]
  unfold build
  rcases hstream with ⟨e, hx, hy⟩ | ⟨h, p, q, event, hx, hy⟩
  · rw [hx, hy]
    exact .inl ⟨_, rfl, rfl⟩
  · rw [hx, hy]
    exact .inr ⟨_, p, q, event, rfl, rfl⟩

end Intake

namespace Index

theorem tile_alike (hs : s.Mirrors bytes picture) (ht : t.Mirrors bytes picture)
    (encoding : Encoding) (config : Config) :
    s.IndexedAlike t (tile encoding s config) (tile encoding t config) := by
  have hdecoded : (s.turned 0).content.decoded encoding = (t.turned 0).content.decoded encoding :=
    hs.content.decoded ht.content encoding
  have hseek : s.seek (.start (0 : Nat)) = (.ok 0, s.turned 0) :=
    Stream.seek_start_of_seekable hs.seekFault (by decide)
  have hseek' : t.seek (.start (0 : Nat)) = (.ok 0, t.turned 0) :=
    Stream.seek_start_of_seekable ht.seekFault (by decide)
  unfold tile
  rw [hseek, hseek']
  dsimp only
  rw [hdecoded]
  cases (t.turned 0).content.decoded encoding with
  | unreadable => exact .inl ⟨_, rfl, rfl⟩
  | sized width height =>
    dsimp only
    cases admitTiles config.limits encoding width height with
    | error e => exact .inl ⟨e, rfl, rfl⟩
    | ok _ => exact .inl ⟨_, rfl, rfl⟩
  | whole width height native pixels =>
    dsimp only
    cases admitTiles config.limits encoding width height with
    | error e => exact .inl ⟨e, rfl, rfl⟩
    | ok _ =>
      cases Failure.fitting (Mosaic.checkCuts width height config.tileSize) with
      | error e => exact .inl ⟨e, rfl, rfl⟩
      | ok _ => exact .inr ⟨_, 0, 0, _, rfl, rfl⟩

theorem build_alike (hs : s.Mirrors bytes picture) (ht : t.Mirrors bytes picture)
    (encoding : Encoding) (config : Config) :
    s.IndexedAlike t (build encoding s config) (build encoding t config) := by
  cases encoding with
  | pnm =>
    have hreach : Netpbm.intake.reach s.length < Stream.fileLimit :=
      Nat.lt_of_le_of_lt (Nat.min_le_right _ _) (by decide)
    exact Netpbm.serves_intake.build_alike hs ht hreach config
  | farbfeld =>
    have hreach : Farbfeld.headerBytes < Stream.fileLimit := by decide
    exact Farbfeld.serves_intake.build_alike hs ht hreach config
  | _ => exact tile_alike hs ht _ config

theorem Built.rowOf_alike {encoding : Encoding} {index : Index}
    (h : Built s config encoding index) (hs : s.Mirrors bytes picture)
    (ht : t.Mirrors bytes picture) (hsize : bytes.size < Stream.fileLimit) {x y count : Nat}
    (hx : x + count ≤ index.width) (hy : y < index.height) :
    index.rowOf t.answers x count y = index.rowOf s.answers x count y := by
  apply rowOf_congr
  intro l hl
  have hlength : s.length < Word.greatest := by
    rw [hs.length]
    exact Nat.lt_trans hsize (by decide)
  have hend := h.start_le hl hlength hx hy
  rw [hs.length, ← RowLayout.start_add] at hend
  have hstop : l.start x y + count * l.pixelBytes < Stream.fileLimit :=
    Nat.lt_of_le_of_lt hend hsize
  rw [hs.answers hstop, ht.answers hstop]

end Index

namespace Viewer

theorem openStream_alike (hs : s.Mirrors bytes picture) (ht : t.Mirrors bytes picture)
    (config : Config) :
    (∃ failure, (openStream s config).1 = .error failure ∧
      (openStream t config).1 = .error failure) ∨
    ∃ v q, (openStream s config).1 = .ok v ∧
      (openStream t config).1 = .ok (v.fedBy (.ofStream (t.turned q)) v.image.allocator) := by
  obtain ⟨r, p, q, hp, hq⟩ := Probe.ofStream_alike hs ht
  unfold openStream openChanging
  rw [ht.length, ← hs.length, hp, hq]
  cases config.limits.checkSource s.length with
  | error excess => exact .inl ⟨_, rfl, rfl⟩
  | ok _ =>
    cases r with
    | error e => exact .inl ⟨_, rfl, rfl⟩
    | ok probe =>
      have hbuild := Index.build_alike (hs.turned p) (ht.turned q) probe.encoding config
      unfold Probe.index
      dsimp only [id]
      rcases hbuild with ⟨e, hx, hy⟩ | ⟨index, p', q', event, hx, hy⟩
      · rw [hx, hy]
        exact .inl ⟨e, rfl, rfl⟩
      · rw [hx, hy]
        exact .inr ⟨_, q', rfl, rfl⟩

theorem Opened.concurs_alike {v : Viewer} (h : v.Opened s config) (hs : s.Mirrors bytes picture)
    (ht : t.Mirrors bytes picture) (hsize : bytes.size < Stream.fileLimit) (q : Nat) (rect : Rect)
    (o : Options) (stop : Stop) :
    (Holding.owned (v.fedBy (.ofStream (t.turned q)) v.image.allocator)).Concurs (.owned v) rect o
      stop := by
  apply Holding.concurs_fedBy
  intro c hc j _ hj
  have hclamped := Image.clamped_of_intersect? hc
  have hl := hclamped.left
  have hw := hclamped.width
  have hr := hclamped.right
  have hb := hclamped.bottom
  simp only [Image.width, Image.height] at hr hb
  have hcolumns : c.left.toNat + c.width ≤ v.image.index.width := by
    simp only [Rect.width]
    omega
  have hrow : j < v.image.index.height := by omega
  obtain ⟨position, hstream⟩ := h.stream
  have hfeed : (Feed.ofStream (t.turned q)).stream = t.turned q := rfl
  rw [hstream, hfeed]
  simp only [Stream.answers_turned]
  exact h.built.rowOf_alike hs ht hsize hcolumns hrow

end Viewer

namespace Supply

open Holding (owned)

/-- The ways to hand over bytes are as good as each other, for opening an image and for any calls on
it later on. The offset that the owner of a file has in it stays as it is, and an asset that is
shorter than it declares is never opened. -/
theorem ways_are_interchangeable (hsize : bytes.size < Stream.fileLimit) :
    (∀ supply supply' config, Brings bytes picture supply → Brings bytes picture supply' →
      (∃ failure, supply.viewer config = .error failure ∧
        supply'.viewer config = .error failure) ∨
      ∃ v w, supply.viewer config = .ok v ∧ supply'.viewer config = .ok w ∧
        v.width = w.width ∧ v.height = w.height ∧ v.encoding = w.encoding ∧
        v.image.index.nativeFormat = w.image.index.nativeFormat ∧
        ∀ deeds, (∀ d ∈ deeds, Deed.IsCall d) → ∀ rect o stop,
          ((owned v).after deeds).Concurs ((owned w).after deeds) rect o stop) ∧
    (∀ (session : Session) name order file step steps, order.supply = .file file →
      Step.Opens name order step → (∀ later ∈ steps, ∀ order, ¬Step.Opens name order later) →
      ∃ kept, (session.run (step :: steps)).2.files.get? name = some kept ∧
        kept.ownerOffset = file.ownerOffset) ∧
    ∀ a declared config, declared < Allocator.addressable → a.position = 0 →
      a.content.failsAtEnd = false → a.medium.Permits declared → a.content.size < declared →
      ∃ fault, (Supply.asset a declared).viewer config = .error (.error (.sourceUnreadable fault)) ∧
        fault.kind = .unexpectedEnd := by
  refine ⟨?_, ?_, ?_⟩
  · intro supply supply' config h h'
    obtain ⟨s, hstream, hs⟩ := h.stream hsize
    obtain ⟨t, hstream', ht⟩ := h'.stream hsize
    have hview : supply.viewer config = (Viewer.openStream s config).1 := by
      rw [Supply.viewer, hstream]
    have hview' : supply'.viewer config = (Viewer.openStream t config).1 := by
      rw [Supply.viewer, hstream']
    rw [hview, hview']
    rcases Viewer.openStream_alike hs ht config with hfailed | ⟨v, q, hv, hw⟩
    · exact .inl hfailed
    · refine .inr ⟨v, _, hv, hw, rfl, rfl, rfl, rfl, fun deeds hcalls rect o stop => ?_⟩
      have hopened := Viewer.opened_of_openStream (Prod.ext hv rfl)
      have hfirst := hopened.concurs_alike hs ht hsize q rect o stop
      exact (Holding.concurs_after hcalls rect o stop).trans
        (hfirst.symm.trans (Holding.concurs_after hcalls rect o stop).symm)
  · intro session name order file step steps hfile hstep hlater
    exact (Session.ownerAt_of_opens hstep hfile).run hlater
  · intro a declared config hfits hstart hends hpermits hshort
    refine ⟨.shortAsset a.content.size declared, ?_, rfl⟩
    rw [Supply.viewer, Supply.stream, Stream.ofAsset_of_short hfits hstart hends hpermits hshort]

theorem ways_are_interchangeable_of_ramp :
    let reader : Stream :=
      ⟨.reader, .ofBytes Viewer.rampBytes, 36, 30, fun _ _ => 1, none, .positionOutOfRange⟩
    let order : Order :=
      ⟨.file ⟨0, .ofBytes Viewer.rampBytes, 17, true, Stream.upToLongest⟩, .none, 256, none, id⟩
    let job : Job := ⟨.viewer "ramp", .ofSize 5 5, .standard, none, none, .none⟩
    let deeds : List Deed := [.decode (.ofSize 5 5) .standard (.after 3 .timedOut)]
    (∃ w, (Supply.held reader).viewer .standard = .ok w ∧
      ((owned Viewer.ramp).after deeds).Concurs ((owned w).after deeds) ⟨1, 1, 4, 9⟩ .standard
        .never) ∧
    (∃ kept, (Session.start.run [.openImage "ramp" order, .decode job]).2.files.get? "ramp" =
      some kept ∧ kept.ownerOffset = 17) ∧
    ∃ fault, (Supply.asset (.ofBytes Viewer.rampBytes) 40).viewer .standard =
      .error (.error (.sourceUnreadable fault)) ∧ fault.kind = .unexpectedEnd := by
  intro reader order job deeds
  have hcopies : Content.Copies (.ofBytes Viewer.rampBytes) Viewer.rampBytes none :=
    ⟨rfl, fun _ _ => rfl, fun _ => rfl, rfl⟩
  have hopen : (Supply.bytes (.ofBytes Viewer.rampBytes)).viewer .standard = .ok Viewer.ramp :=
    congrArg Prod.fst Viewer.openStream_ramp
  have hsize : Viewer.rampBytes.size < Stream.fileLimit := by decide
  obtain ⟨hways, howner, hshort⟩ := @ways_are_interchangeable Viewer.rampBytes none hsize
  refine ⟨?_, ?_, ?_⟩
  · rcases hways _ (.held reader) .standard (.bytes hcopies)
      (.held hcopies rfl rfl fun _ _ => trivial) with ⟨failure, hfailed, _⟩ | hopened
    · rw [hopen] at hfailed
      cases hfailed
    · obtain ⟨v, w, hv, hw, _, _, _, _, hconcurs⟩ := hopened
      rw [hopen] at hv
      cases hv
      refine ⟨w, hw, hconcurs deeds ?_ _ _ _⟩
      intro d hd
      obtain rfl := List.mem_singleton.mp hd
      trivial
  · refine howner Session.start "ramp" order _ _ [.decode job] rfl .whole ?_
    intro later hlater other hopens
    obtain rfl := List.mem_singleton.mp hlater
    cases hopens
  · exact hshort (.ofBytes Viewer.rampBytes) 40 .standard (by decide) rfl rfl trivial (by decide)

end Supply

end ImageRegion
