import ImageRegion.Proofs.Image.Intake
import ImageRegion.Proofs.Image.Picture

namespace ImageRegion

namespace Netpbm

theorem channels_of_magic {bytes rest : List UInt8} {channels : Nat}
    (h : magic bytes = .ok (channels, rest)) : channels = 1 ∨ channels = 3 := by
  unfold magic at h
  split at h
  · split at h
    · cases h
    · split at h
      · cases h
        exact .inl rfl
      · split at h
        · cases h
          exact .inr rfl
        · split at h <;> cases h
  · cases h

namespace Header

structure IsValid (h : Header) : Prop where
  channels : h.channels = 1 ∨ h.channels = 3
  maxval_pos : 0 < h.maxval
  maxval_le : h.maxval ≤ 65535

theorem isValid_of_parse {bytes : List UInt8} {h : Header} (hp : parse bytes = .ok h) :
    h.IsValid := by
  unfold parse at hp
  obtain ⟨⟨channels, rest⟩, hm, hp⟩ := bind_eq_ok hp
  obtain ⟨⟨width, rest⟩, _, hp⟩ := bind_eq_ok hp
  obtain ⟨⟨height, rest⟩, _, hp⟩ := bind_eq_ok hp
  obtain ⟨⟨maxval, rest⟩, _, hp⟩ := bind_eq_ok hp
  obtain ⟨rest, _, hp⟩ := bind_eq_ok hp
  simp only [validate] at hp
  split at hp
  · cases hp
  · split at hp
    · cases hp
    next hmaxval =>
      cases hp
      constructor
      · exact channels_of_magic hm
      · exact Nat.pos_of_ne_zero fun hz => hmaxval (.inl hz)
      · exact Nat.le_of_not_lt fun hlt => hmaxval (.inr hlt)

theorem parse_of_ofStream {s s' : Stream} {limits : Limits} {h : Header} {event : Event}
    (ho : ofStream s limits = .ok (h, s', event)) :
    (∃ bytes, parse bytes = .ok h) ∧ h.neededBytes ≤ s.length ∧
      ∃ position, s' = s.turned position :=
  Intake.parse_of_ofStream ((intake_ofStream s limits).trans ho)

theorem ofStream_ok {s s' : Stream} {limits : Limits} {h : Header} {event : Event}
    (ho : ofStream s limits = .ok (h, s', event)) :
    h.IsValid ∧ h.neededBytes ≤ s.length ∧ ∃ position, s' = s.turned position := by
  obtain ⟨⟨bytes, hp⟩, hs⟩ := parse_of_ofStream ho
  exact ⟨isValid_of_parse hp, hs⟩

end Header

end Netpbm

theorem Farbfeld.Header.parse_of_ofStream {s s' : Stream} {limits : Limits} {h : Header}
    {event : Event} (ho : ofStream s limits = .ok (h, s', event)) :
    (∃ bytes, parse bytes = .ok h) ∧ h.neededBytes ≤ s.length ∧
      ∃ position, s' = s.turned position :=
  Intake.parse_of_ofStream ((intake_ofStream s limits).trans ho)

inductive Index.Built (s : Stream) (config : Config) : Encoding → Index → Prop
  | pnm {h : Netpbm.Header} (hvalid : h.IsValid) (hneeded : h.neededBytes ≤ s.length) :
      Built s config .pnm (.pnm h)
  | farbfeld {h : Farbfeld.Header} (hneeded : h.neededBytes ≤ s.length) :
      Built s config .farbfeld (.farbfeld h)
  | tiled {encoding : Encoding} {width height : Nat} {native : PixelFormat} {pixels : Array Pixel}
      (hencoding : encoding.hasRandomAccess = false)
      (hdecoded : s.content.decoded encoding = .whole width height native pixels)
      (hcuts : Mosaic.checkCuts width height config.tileSize = .ok ()) :
      Built s config encoding (.tiled (.ofPixels width height native config.tileSize pixels))

namespace Index

variable {encoding : Encoding} {s s' : Stream} {config : Config} {index : Index} {event : Event}

theorem built_of_tile (h : tile encoding s config = .ok (index, s', event))
    (he : encoding.hasRandomAccess = false) :
    Built s config encoding index ∧ ∃ position, s' = s.turned position := by
  unfold tile at h
  rcases s.seek_start 0 with ⟨fault, hs⟩ | hs
  · rw [show s.seek (.start 0) = _ from hs s.position] at h
    cases h
  · rw [show s.seek (.start 0) = _ from hs s.position] at h
    dsimp only at h
    split at h
    · cases h
    · obtain ⟨_, _, h⟩ := bind_eq_ok h
      cases h
    next hd =>
      obtain ⟨_, _, h⟩ := bind_eq_ok h
      obtain ⟨_, hcuts, h⟩ := bind_eq_ok h
      cases h
      exact ⟨.tiled he hd (mapError_eq_ok hcuts), 0, rfl⟩

theorem built_of_build (h : build encoding s config = .ok (index, s', event)) :
    Built s config encoding index ∧ ∃ position, s' = s.turned position := by
  cases encoding with
  | pnm =>
    obtain ⟨_, ho, h⟩ := bind_eq_ok h
    cases h
    obtain ⟨hvalid, hneeded, hturned⟩ := Netpbm.Header.ofStream_ok (mapError_eq_ok ho)
    exact ⟨.pnm hvalid hneeded, hturned⟩
  | farbfeld =>
    obtain ⟨_, ho, h⟩ := bind_eq_ok h
    cases h
    obtain ⟨_, hneeded, hturned⟩ := Farbfeld.Header.parse_of_ofStream (mapError_eq_ok ho)
    exact ⟨.farbfeld hneeded, hturned⟩
  | _ => exact built_of_tile h rfl

theorem built_turned {position : Nat} (h : Built (s.turned position) config encoding index) :
    Built s config encoding index := by
  cases h with
  | pnm hvalid hneeded => exact .pnm hvalid hneeded
  | farbfeld hneeded => exact .farbfeld hneeded
  | tiled hencoding hdecoded hcuts => exact .tiled hencoding hdecoded hcuts

end Index

theorem Probe.ofStream_turns {s s' : Stream} {p : Probe} (h : ofStream s = (.ok p, s')) :
    ∃ position, s' = s.turned position := by
  unfold ofStream at h
  split at h
  · cases h
  next hr =>
    split at h
    · cases h
    · cases h
      exact Stream.readExactAt_eq_turned hr

variable {s : Stream} {config : Config} {v : Viewer} {events : List Event}

namespace Viewer

structure Opened (v : Viewer) (s : Stream) (config : Config) : Prop where
  built : Index.Built s config v.encoding v.image.index
  stream : ∃ position, v.image.feed.stream = s.turned position
  allocator : v.image.allocator = config.allocator
  limits : v.image.limits = config.limits
  width : v.width = v.image.width
  height : v.height = v.image.height

theorem opened_of_openStream (h : openStream s config = (.ok v, events)) : v.Opened s config := by
  unfold openStream openChanging at h
  split at h
  · cases h
  · split at h
    · cases h
    next probe s' hp =>
      obtain ⟨position, rfl⟩ := Probe.ofStream_turns hp
      split at h
      · cases h
      next image event hi =>
        cases h
        obtain ⟨⟨index, s', event⟩, hb, hi⟩ := bind_eq_ok hi
        cases hi
        obtain ⟨hbuilt, last, rfl⟩ := Index.built_of_build hb
        exact ⟨Index.built_turned hbuilt, ⟨last, rfl⟩, rfl, rfl, rfl, rfl⟩

theorem openStream_of_index {s' : Stream} {probe : Probe} {image : Image} {event : Event}
    (hsource : config.limits.checkSource s.length = .ok ())
    (hprobe : Probe.ofStream s = (.ok probe, s'))
    (hindex : { probe with allocator := config.allocator }.index s' config = .ok (image, event)) :
    openStream s config = (.ok ⟨image, image.width, image.height⟩,
      [event, .opened image.encoding image.width image.height]) := by
  unfold openStream openChanging
  simp only [hsource, hprobe, id, hindex]

end Viewer

/-- The decoder of the encoding gives a pixel for each column of each row. -/
def Content.IsWhole (c : Content) (encoding : Encoding) : Prop :=
  ∀ width height native pixels, c.decoded encoding = .whole width height native pixels →
    pixels.size = width * height

theorem Index.Built.holds {encoding : Encoding} {index : Index} (h : Built s config encoding index)
    (ht : encoding.hasRandomAccess = false → 0 < config.tileSize ∧ s.content.IsWhole encoding) :
    ∃ P, index.Holds s.content P := by
  cases h with
  | pnm hvalid _ => exact ⟨_, hvalid.channels, fun _ _ _ _ => rfl⟩
  | farbfeld _ => exact ⟨_, fun _ _ _ _ => rfl⟩
  | tiled hencoding hdecoded _ =>
    obtain ⟨hsize, hwhole⟩ := ht hencoding
    exact ⟨_, _, hsize, hwhole _ _ _ _ hdecoded, rfl, fun _ _ _ _ => rfl⟩

theorem Viewer.Opened.holds (h : v.Opened s config)
    (ht : v.encoding.hasRandomAccess = false →
      0 < config.tileSize ∧ s.content.IsWhole v.encoding) :
    ∃ P, v.image.index.Holds v.image.feed.stream.content P := by
  obtain ⟨position, hstream⟩ := h.stream
  rw [hstream]
  exact h.built.holds ht

def Config.unlimited (c : Config) : Config := { c with limits := .none }

def Viewer.unlimited (v : Viewer) : Viewer := { v with image.limits := .none }

section Unlimited

variable {s s' : Stream} {config : Config} {limits : Limits} {event : Event}

theorem Index.admitTiles_unlimited {encoding : Encoding} {width height : Nat}
    (h : admitTiles limits encoding width height = .ok ()) :
    admitTiles .none encoding width height = .ok () := by
  unfold admitTiles at h ⊢
  split at h
  · cases h
  next hsize =>
    obtain ⟨_, _, h⟩ := bind_eq_ok h
    obtain ⟨bytes, hbytes, _⟩ := bind_eq_ok h
    rw [if_neg hsize]
    simp only [hbytes]
    rfl

theorem Intake.Serves.build_unlimited {α : Type} {k : Intake α} (hk : k.Serves) {index : Index}
    (h : Index.build k.encoding s config = .ok (index, s', event)) :
    Index.build k.encoding s config.unlimited = .ok (index, s', event) := by
  rw [hk] at h ⊢
  obtain ⟨header, ho, rfl⟩ := build_eq_ok h
  unfold build
  rw [show config.unlimited.limits = .none from rfl, ofStream_unlimited ho]
  rfl

theorem Index.build_unlimited {encoding : Encoding} {index : Index}
    (h : build encoding s config = .ok (index, s', event)) :
    build encoding s config.unlimited = .ok (index, s', event) := by
  have htile (h : tile encoding s config = .ok (index, s', event)) :
      tile encoding s config.unlimited = .ok (index, s', event) := by
    unfold tile at h ⊢
    split at h
    · cases h
    · split at h
      · cases h
      · obtain ⟨_, _, h⟩ := bind_eq_ok h
        cases h
      · obtain ⟨_, ha, h⟩ := bind_eq_ok h
        dsimp only
        rw [show config.unlimited.limits = .none from rfl, admitTiles_unlimited ha]
        exact h
  cases encoding with
  | pnm => exact Netpbm.serves_intake.build_unlimited h
  | farbfeld => exact Farbfeld.serves_intake.build_unlimited h
  | _ => exact htile h

theorem Viewer.openStream_unlimited {v : Viewer} (h : (openStream s config).1 = .ok v) :
    (openStream s config.unlimited).1 = .ok v.unlimited := by
  unfold openStream openChanging at h ⊢
  split at h
  · cases h
  · split at h
    · cases h
    · split at h
      · cases h
      next hi =>
        cases h
        obtain ⟨⟨index, s', event⟩, hb, hi⟩ := bind_eq_ok hi
        cases hi
        rw [show config.unlimited.limits.checkSource s.length = .ok () from rfl]
        simp only [Probe.index, Index.build_unlimited hb]
        rfl

end Unlimited

end ImageRegion
