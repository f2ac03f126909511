import ImageRegion.Proofs.Image.Layout
import ImageRegion.Proofs.Stitching

namespace ImageRegion

namespace Image

variable {im : Image} {rect c : Rect} {o : Options} {stop : Stop}

theorem intersect?_ofSize (hwidth : 0 < im.width) (hheight : 0 < im.height) :
    im.bounds.intersect? (.ofSize im.width im.height) =
      some ⟨0, 0, min im.width Rect.maxCoord, min im.height Rect.maxCoord⟩ := by
  have hcoord : 0 < Rect.maxCoord := by decide
  have hclamped : im.Clamped ⟨0, 0, min im.width Rect.maxCoord, min im.height Rect.maxCoord⟩ := by
    constructor <;> dsimp only <;> omega
  exact intersect?_of_clamped hclamped

theorem exists_contains_iff {x y : Nat} (hx : x < im.width) (hy : y < im.height) :
    (∃ rect c, im.bounds.intersect? rect = some c ∧ c.Contains x y) ↔
      (x : Int) < Rect.maxCoord ∧ (y : Int) < Rect.maxCoord := by
  constructor
  · rintro ⟨rect, c, hc, hin⟩
    have hclamped := clamped_of_intersect? hc
    have hcolumns := hclamped.columns
    have hrows := hclamped.rows
    simp only [Rect.Contains] at hin
    omega
  · rintro ⟨hcolumn, hrow⟩
    let dot : Rect := ⟨x, y, x + 1, y + 1⟩
    have hdot : im.Clamped dot := by
      constructor <;> dsimp only [dot] <;> omega
    refine ⟨dot, dot, intersect?_of_clamped hdot, ?_⟩
    simp only [Rect.Contains, dot]
    omega

theorem sampleSize_one (h : o.sampleSize = 1) :
    (im.regionOf c o).width = c.width ∧ (im.regionOf c o).height = c.height := by
  show Word.ceilDiv c.width o.sampleSize = c.width ∧ Word.ceilDiv c.height o.sampleSize = c.height
  have hone (n : Nat) : Word.ceilDiv n 1 = n := by
    have hexact := Word.ceilDiv_mul Nat.one_pos n
    rwa [Nat.mul_one] at hexact
  rw [h, hone, hone]
  exact ⟨rfl, rfl⟩

theorem decode_shows_pixels {P : Nat → Nat → Pixel} {storage : Array UInt8}
    (hP : im.index.Holds im.feed.stream.content P) (hc : im.bounds.intersect? rect = some c)
    (hs : o.sampleSize = 1) (hq : o.quality = false)
    (hl : Limits.Admits im.limits.regionBytes (im.regionOf c o).byteLength)
    (hstop : ∀ k ≤ (im.regionOf c o).height, stop k = none)
    (hreads : ∀ j < im.height, im.Reads c j)
    (ha : im.allocator.allot (im.regionOf c o).byteLength = .storage storage)
    (hsize : (im.regionOf c o).byteLength ≤ storage.size) :
    ∃ b, (im.decode rect o stop).1.result = .ok (.decoded (b, im.regionOf c o)) ∧
      ∀ x y : Nat, c.Contains x y →
        Coding.Stores ⟨(im.regionOf c o).format, o.premultiplied, o.dither⟩ (x - c.left.toNat)
          (y - c.top.toNat) (P x y) (b.pixelBytes (x - c.left.toNat) (y - c.top.toNat)) := by
  have hclamped := clamped_of_intersect? hc
  have hl' := hclamped.left
  have ht := hclamped.top
  have hh := hclamped.height
  have hb := hclamped.bottom
  have hpos : 0 < o.sampleSize := by omega
  have hplan := plan_eq_ok hpos (hstop 0 (Nat.zero_le _)) hc hl
  have hshown (y : Nat) (hy : y < (im.regionOf c o).height) :=
    sampled_centres (y := y) hP hclamped hpos hq (hreads _ (by omega))
  obtain ⟨b, hresult, _, hdepicts⟩ := decode_depicts hplan hstop hshown ha hsize
  refine ⟨b, hresult, fun x y hin => ?_⟩
  obtain ⟨hwidth, hheight⟩ := @sampleSize_one im c o hs
  simp only [Rect.Contains] at hin
  have hcolumn : x - c.left.toNat < c.width := by
    simp only [Rect.width]
    omega
  have hrow : y - c.top.toNat < c.height := by
    simp only [Rect.height]
    omega
  have hpixel := hdepicts.pixel (x - c.left.toNat) (hwidth ▸ hcolumn) (y - c.top.toNat)
    (hheight ▸ hrow)
  have hplace : c.centrePixel o.sampleSize P (x - c.left.toNat) (y - c.top.toNat) = P x y := by
    unfold Rect.centrePixel
    rw [hs, Nat.mul_one, Nat.mul_one]
    congr 1 <;> omega
  rwa [hplace] at hpixel

end Image

namespace Viewer

variable {s : Stream} {config : Config} {v : Viewer} {events : List Event} {f : Feed}
  {a : Allocator}

theorem Opened.reads (h : v.Opened s config)
    (hstreamed : v.encoding.hasRandomAccess = true →
      s.Yields ⟨0, s.length⟩ ∧ s.length < Word.greatest)
    (hf : ∃ position, f.stream = s.turned position) {c : Rect} (hc : v.image.Clamped c) {j : Nat}
    (hj : j < v.image.height) : (v.image.fedBy f a).Reads c j := by
  have hl := hc.left
  have hw := hc.width
  have hr := hc.right
  simp only [Image.width] at hr
  have hcount : 0 < c.width := by
    simp only [Rect.width]
    omega
  have hcolumns : c.left.toNat + c.width ≤ v.image.index.width := by
    simp only [Rect.width]
    omega
  obtain ⟨position, hf⟩ := hf
  obtain ⟨row, hrow⟩ := h.built.rowOf_ok_of_yields hstreamed hcount hcolumns hj
  refine ⟨row, ?_⟩
  rw [Index.readRow_fst, show (v.image.fedBy f a).feed.stream = f.stream from rfl, hf,
    Stream.answers_turned]
  exact hrow

theorem holds_fedBy {P : Nat → Nat → Pixel} (hf : ∃ position, f.stream = s.turned position)
    (hP : v.image.index.Holds s.content P) :
    (v.image.fedBy f a).index.Holds (v.image.fedBy f a).feed.stream.content P := by
  obtain ⟨position, hstream⟩ := hf
  rw [show (v.image.fedBy f a).feed.stream = f.stream from rfl, hstream]
  exact hP

theorem Opened.intersect?_ofSize (h : v.Opened s config) (hwidth : 0 < v.image.width)
    (hheight : 0 < v.image.height) {width height : Nat}
    (hw : width = min v.width Rect.maxCoord.toNat)
    (hh : height = min v.height Rect.maxCoord.toNat) :
    v.image.bounds.intersect? (.ofSize v.width v.height) = some ⟨0, 0, width, height⟩ := by
  have hbounds := Image.intersect?_ofSize hwidth hheight
  have hcoord : (Rect.maxCoord.toNat : Int) = Rect.maxCoord := by decide
  have hcorner : (⟨0, 0, min v.image.width Rect.maxCoord, min v.image.height Rect.maxCoord⟩ :
      Rect) = ⟨0, 0, width, height⟩ := by
    have hwidth := h.width
    have hheight := h.height
    congr 1 <;> omega
  rw [hcorner] at hbounds
  rw [h.width, h.height]
  exact hbounds

theorem Opened.decodes_ofSize {o : Options} {stop : Stop} (h : v.Opened s config)
    (hwidth : 0 < v.image.width) (hheight : 0 < v.image.height)
    (hstreamed : v.encoding.hasRandomAccess = true →
      s.Yields ⟨0, s.length⟩ ∧ s.length < Word.greatest)
    (hf : ∃ position, f.stream = s.turned position) (hs : 0 < o.sampleSize) {width height : Nat}
    (hw : width = min v.width Rect.maxCoord.toNat) (hh : height = min v.height Rect.maxCoord.toNat)
    (hl : Limits.Admits v.image.limits.regionBytes
      (v.image.regionOf ⟨0, 0, width, height⟩ o).byteLength)
    (hstop : ∀ k ≤ (v.image.regionOf ⟨0, 0, width, height⟩ o).height, stop k = none) :
    (∀ storage,
      a.allot (v.image.regionOf ⟨0, 0, width, height⟩ o).byteLength = .storage storage →
      ∃ b, ((v.fedBy f a).decode (.ofSize v.width v.height) o stop).1.result =
        .ok (.decoded (b, v.image.regionOf ⟨0, 0, width, height⟩ o))) ∧
    ∀ target : Bitmap,
      (v.image.regionOf ⟨0, 0, width, height⟩ o).byteLength ≤ target.capacity →
      ((v.fedBy f a).decodeInto (.ofSize v.width v.height) o target stop).1.result =
        .ok (.decoded (v.image.regionOf ⟨0, 0, width, height⟩ o)) := by
  let im := v.image.fedBy f a
  let r := v.image.regionOf ⟨0, 0, width, height⟩ o
  have hbounds := h.intersect?_ofSize hwidth hheight hw hh
  have hc : im.bounds.intersect? (.ofSize v.width v.height) = some ⟨0, 0, width, height⟩ := hbounds
  have hclamped : im.Clamped ⟨0, 0, width, height⟩ := Image.clamped_of_intersect? hc
  have hpaintable : (o.painting r).Paintable (im.rows r o) := by
    apply Image.paintable_of_reads hclamped hs
    intro j _ hj
    have hb := hclamped.bottom
    have hin : j < im.height := by omega
    exact h.reads hstreamed hf (Image.clamped_of_intersect? hbounds) hin
  have hplan : im.plan (.ofSize v.width v.height) o stop = .ok r :=
    Image.plan_eq_ok hs (hstop 0 (Nat.zero_le _)) hc hl
  constructor
  · intro storage ha
    exact ⟨_, (Image.decode_passes hpaintable hplan ha hstop).1⟩
  · intro target hsize
    exact (Image.decodeInto_passes hpaintable hplan hsize hstop).1

/-- Of an image that opened on a readable source everything can be asked for that lies before the
greatest coordinate: as a whole, at any sample size, and pixel by pixel. Nothing else can. -/
theorem coverage_ends_with_coordinates (hopen : openStream s config = (.ok v, events))
    (hstreamed : v.encoding.hasRandomAccess = true →
      s.Yields ⟨0, s.length⟩ ∧ s.length < Word.greatest)
    (htiled : v.encoding.hasRandomAccess = false →
      0 < config.tileSize ∧ s.content.IsWhole v.encoding)
    (hf : ∃ position, f.stream = s.turned position) :
    (∀ o stop, 0 < o.sampleSize →
      let width := min v.width Rect.maxCoord.toNat
      let height := min v.height Rect.maxCoord.toNat
      let r : Region := ⟨Word.ceilDiv width o.sampleSize, Word.ceilDiv height o.sampleSize,
        o.format.getD v.image.index.nativeFormat, ⟨0, 0, width, height⟩, o.sampleSize, v.encoding⟩
      let fits := Rect.BlocksFit ⟨0, 0, width, height⟩ o
      Limits.Admits v.image.limits.regionBytes r.byteLength → (∀ k ≤ r.height, stop k = none) →
      (fits → o.quality = true → ∀ P, v.image.index.Holds s.content P →
        (v.image.fedBy f a).SumsExact ⟨0, 0, width, height⟩ o P) ∧
      (∀ storage, a.allot r.byteLength = .storage storage →
        ComesTo fits ((v.fedBy f a).decode (.ofSize v.width v.height) o stop).1.result
          fun outcome => ∃ b, outcome = .decoded (b, r)) ∧
      ∀ target : Bitmap, r.byteLength ≤ target.capacity →
        ComesTo fits ((v.fedBy f a).decodeInto (.ofSize v.width v.height) o target stop).1.result
          (· = .decoded r)) ∧
    ∃ P, v.image.index.Holds s.content P ∧ ∀ x < v.width, ∀ y < v.height,
      ((∃ rect c, v.image.bounds.intersect? rect = some c ∧ c.Contains x y) ↔
        (x : Int) < Rect.maxCoord ∧ (y : Int) < Rect.maxCoord) ∧
      ∀ rect c o stop, v.image.bounds.intersect? rect = some c → c.Contains x y →
        o.sampleSize = 1 → o.quality = false →
        Limits.Admits v.image.limits.regionBytes (v.image.regionOf c o).byteLength →
        (∀ k ≤ (v.image.regionOf c o).height, stop k = none) →
        ∀ storage, a.allot (v.image.regionOf c o).byteLength = .storage storage →
          (v.image.regionOf c o).byteLength ≤ storage.size →
          ∃ b, ((v.fedBy f a).decode rect o stop).1.result =
              .ok (.decoded (b, v.image.regionOf c o)) ∧
            Coding.Stores ⟨(v.image.regionOf c o).format, o.premultiplied, o.dither⟩
              (x - c.left.toNat) (y - c.top.toNat) (P x y)
              (b.pixelBytes (x - c.left.toNat) (y - c.top.toNat)) := by
  have hopened := opened_of_openStream hopen
  obtain ⟨hwidth, hheight⟩ := pos_of_openStream hopen
  constructor
  · intro o stop hs width height r fits hl hstop
    obtain ⟨hfresh, hinto⟩ :=
      hopened.decodes_ofSize (a := a) hwidth hheight hstreamed hf hs rfl rfl hl hstop
    refine ⟨fun hfits hq P hP => ?_, fun storage ha => ?_, fun target hsize => ?_⟩
    · let im := v.image.fedBy f a
      have hbounds : v.image.bounds.intersect? (.ofSize v.width v.height) =
          some ⟨0, 0, width, height⟩ := hopened.intersect?_ofSize hwidth hheight rfl rfl
      have hc : im.bounds.intersect? (.ofSize v.width v.height) = some ⟨0, 0, width, height⟩ :=
        hbounds
      have hclamped : im.Clamped ⟨0, 0, width, height⟩ := Image.clamped_of_intersect? hc
      refine Image.sumsExact_of_card (holds_fedBy hf hP) hclamped hs (fun j _ hj => ?_)
        fun x _ y _ => hfits hq x y
      have hb := hclamped.bottom
      have hin : j < im.height := by omega
      exact hopened.reads hstreamed hf (Image.clamped_of_intersect? hbounds) hin
    · obtain ⟨b, hresult⟩ := hfresh storage ha
      exact comesTo_of_ok hresult ⟨b, rfl⟩
    · exact comesTo_of_ok (hinto target hsize) rfl
  · obtain ⟨P, hP⟩ := hopened.built.holds htiled
    refine ⟨P, hP, fun x hx y hy => ?_⟩
    rw [hopened.width] at hx
    rw [hopened.height] at hy
    refine ⟨Image.exists_contains_iff hx hy, ?_⟩
    intro rect c o stop hc hin hs hq hl hstop storage ha hsize
    obtain ⟨b, hresult, hstores⟩ := Image.decode_shows_pixels (holds_fedBy hf hP) hc hs hq hl hstop
      (fun j hj => hopened.reads hstreamed hf (Image.clamped_of_intersect? hc) hj) ha hsize
    exact ⟨b, hresult, hstores x y hin⟩

theorem coverage_ends_with_coordinates_of_ramp :
    (∃ b, (ramp.decode (.ofSize 5 5) { Options.standard with sampleSize := 3 } .never).1.result =
      .ok (.decoded (b, ⟨2, 2, .gray8, ⟨0, 0, 5, 5⟩, 3, .pnm⟩))) ∧
    ∃ P, ramp.image.index.Holds (.ofBytes rampBytes) P ∧
      ∃ b, (ramp.decode ⟨4, 3, 9, 9⟩ ⟨1, some .gray8, false, false, false⟩ .never).1.result =
          .ok (.decoded (b, ⟨1, 2, .gray8, ⟨4, 3, 5, 5⟩, 1, .pnm⟩)) ∧
        Coding.Stores ⟨.gray8, false, false⟩ 0 1 (P 4 4) (b.pixelBytes 0 1) := by
  obtain ⟨hwhole, P, hP, hpixels⟩ := coverage_ends_with_coordinates (f := ramp.image.feed)
    (a := .heap) openStream_ramp
    (fun _ => ⟨inMemory_ramp.yields (Nat.le_refl _), by decide⟩) (fun he => by cases he) ⟨36, rfl⟩
  have hunlimited (n : Nat) : Limits.Admits ramp.image.limits.regionBytes n := by
    intro _ hm
    cases hm
  constructor
  · obtain ⟨-, hfresh, -⟩ := hwhole { Options.standard with sampleSize := 3 } .never (by decide)
      (hunlimited _) (Stop.never_passes _)
    obtain ⟨_, hresult, b, rfl⟩ := (hfresh (.replicate 4 0) rfl).exists_ok nofun
    exact ⟨b, hresult⟩
  · refine ⟨P, hP, ?_⟩
    have hc : ramp.image.bounds.intersect? ⟨4, 3, 9, 9⟩ = some ⟨4, 3, 5, 5⟩ := by decide
    exact (hpixels 4 (by decide) 4 (by decide)).2 _ _ _ .never hc (by decide) rfl rfl
      (hunlimited _) (Stop.never_passes _) (.replicate 2 0) rfl (by decide)

def towerStream : Stream :=
  .padded (Stream.farbfeldHead [0, 0, 0, 1] [0x80, 0, 0, 0]) 0x400000010

def tower : Viewer :=
  ⟨⟨.farbfeld, .heap, .none, .farbfeld ⟨1, 0x80000000⟩, .ofStream (towerStream.turned 16)⟩,
    1, 0x80000000⟩

theorem openStream_tower : openStream towerStream .standard =
    (.ok tower, [.farbfeldIndexed 1 0x80000000, .opened .farbfeld 1 0x80000000]) := by
  have hread (p : Nat) {count : Nat} (hcount : count ≤ 0x400000010) :
      (towerStream.turned p).readExactAt 0 count =
        (.ok (towerStream.content.slice 0 count), towerStream.turned (0 + count)) :=
    Stream.readExactAt_padded _ p (by omega) (by decide)
  have hprobe : Probe.ofStream towerStream = (.ok ⟨.farbfeld, .heap⟩, towerStream.turned 12) := by
    unfold Probe.ofStream
    rw [show towerStream.readExactAt 0 (min towerStream.length Encoding.magicLength) = _
      from hread 0 (by decide)]
    rfl
  have hparse : Farbfeld.Header.parse (towerStream.content.slice 0 16).toList =
      .ok ⟨1, 0x80000000⟩ := by decide +kernel
  refine openStream_of_index rfl hprobe ?_
  unfold Probe.index Index.build Farbfeld.Header.ofStream
  dsimp only
  rw [hread 12 (by decide)]
  simp only [Farbfeld.headerBytes, hparse]
  rfl

theorem coverage_of_tower :
    let o : Options := { Options.standard with sampleSize := 0x7FFFFFFF }
    (∃ events, openStream towerStream .standard = (.ok tower, events)) ∧
      tower.height = 0x80000000 ∧
      (∃ b, (tower.decode (.ofSize tower.width tower.height) o .never).1.result =
        .ok (.decoded (b, ⟨1, 1, .rgba8, ⟨0, 0, 1, 0x7FFFFFFF⟩, 0x7FFFFFFF, .farbfeld⟩))) ∧
      ¬∃ rect c, tower.image.bounds.intersect? rect = some c ∧ c.Contains 0 0x7FFFFFFF := by
  intro o
  have hr : tower.image.regionOf ⟨0, 0, (1 : Nat), (0x7FFFFFFF : Nat)⟩ o =
      ⟨1, 1, .rgba8, ⟨0, 0, 1, 0x7FFFFFFF⟩, 0x7FFFFFFF, .farbfeld⟩ := by decide +kernel
  refine ⟨⟨_, openStream_tower⟩, rfl, ?_, ?_⟩
  · have hwidth : 1 = min tower.width Rect.maxCoord.toNat := by decide
    have hheight : 0x7FFFFFFF = min tower.height Rect.maxCoord.toNat := by decide
    have hclear : towerStream.content.IsClear ⟨0, towerStream.length⟩ :=
      Content.isClear_of_unfaulted (fun _ => rfl) (Nat.le_refl _)
    obtain ⟨hfresh, _⟩ := (opened_of_openStream openStream_tower).decodes_ofSize
      (f := tower.image.feed) (a := .heap) (o := o) (by decide) (by decide)
      (fun _ => ⟨⟨rfl, hclear, trivial⟩, by decide⟩) ⟨16, rfl⟩ (by decide) hwidth hheight
      (fun _ hm => by cases hm) (Stop.never_passes _)
    rw [hr] at hfresh
    exact hfresh (.replicate 4 0) rfl
  · intro hcontains
    have hin : 0 < tower.image.width ∧ 0x7FFFFFFF < tower.image.height := by decide
    exact absurd ((Image.exists_contains_iff hin.1 hin.2).mp hcontains).2 (by decide)

end Viewer

end ImageRegion
