import ImageRegion.Proofs.Storage

namespace ImageRegion

def Region.recoded (r : Region) (e : Encoding) : Region := { r with encoding := e }

namespace Painting

def recoded (p : Painting) (e : Encoding) : Painting := { p with region := p.region.recoded e }

variable (p : Painting) (e : Encoding) (index : Index)

theorem tallyRows_recoded (count y : Nat) (f : Feed) (tallies : Array Tally) :
    (p.recoded e).tallyRows index count y f tallies = p.tallyRows index count y f tallies := by
  induction count generalizing y f tallies with
  | zero => rfl
  | succ count ih =>
    simp only [tallyRows, ih]
    rfl

theorem sampleRow_recoded (f : Feed) (y : Nat) :
    (p.recoded e).sampleRow index f y = p.sampleRow index f y := by
  simp only [sampleRow, averageRow, tallyRows_recoded]
  rfl

theorem paint_recoded (stop : Stop) (count y : Nat) (written : Array UInt8) (f : Feed) :
    (p.recoded e).paint index stop count y written f = p.paint index stop count y written f := by
  induction count generalizing y written f with
  | zero => rfl
  | succ count ih =>
    simp only [paint, ih, sampleRow_recoded]
    rfl

end Painting

structure Decoding.Renames {α : Type} (rename : α → α) (d d' : Decoding α) : Prop where
  result : d'.result = d.result.map fun outcome => outcome.map rename
  checks : d'.checks = d.checks
  requests : d'.requests = d.requests

theorem Ending.result_map {α β : Type} (f : α → β) (a : α) (ending : Ending) :
    (ending.result a).map (fun outcome => outcome.map f) = ending.result (f a) := by
  cases ending <;> rfl

theorem Halt.result_map {α β : Type} (f : α → β) (halt : Halt) :
    halt.result.map (fun outcome => outcome.map f) = halt.result := by
  cases halt <;> rfl

namespace Image

def recoded (im : Image) (e : Encoding) : Image := { im with encoding := e }

variable {im im' : Image} {rect c : Rect} {o : Options} {stop : Stop} {r : Region} {e : Encoding}

theorem plan_recoded : (im.recoded e).plan rect o stop =
    (im.plan rect o stop).map fun r => r.recoded e := by
  unfold plan
  by_cases hs : o.sampleSize = 0
  · simp only [if_pos hs]
    rfl
  · simp only [if_neg hs, show (im.recoded e).bounds = im.bounds from rfl]
    cases stop 0 with
    | some reason => rfl
    | none =>
      cases im.bounds.intersect? rect with
      | none => rfl
      | some c =>
        have hcheck : (im.recoded e).limits.checkRegion ((im.recoded e).regionOf c o).byteLength =
            im.limits.checkRegion (im.regionOf c o).byteLength := rfl
        simp only [hcheck]
        cases im.limits.checkRegion (im.regionOf c o).byteLength <;> rfl

theorem paint_recoded : (im.recoded e).paint (r.recoded e) o stop = im.paint r o stop :=
  (o.painting r).paint_recoded e im.index stop r.height 0 #[] im.feed

theorem decode_recoded (im : Image) (e : Encoding) (rect : Rect) (o : Options) (stop : Stop) :
    Decoding.Renames (fun (b, r) => (b, r.recoded e)) (im.decode rect o stop).1
      ((im.recoded e).decode rect o stop).1 := by
  unfold decode
  rw [plan_recoded]
  cases im.plan rect o stop with
  | error halt => exact ⟨(halt.result_map _).symm, rfl, rfl⟩
  | ok r =>
    have hallot : (im.recoded e).allocator.allot (r.recoded e).byteLength =
        im.allocator.allot r.byteLength := rfl
    simp only [Except.map, hallot]
    cases im.allocator.allot r.byteLength with
    | refused error => exact ⟨rfl, rfl, rfl⟩
    | abandoned message => exact ⟨rfl, rfl, rfl⟩
    | storage storage =>
      refine ⟨?_, ?_, rfl⟩
      · rw [paint_recoded, Ending.result_map]
        rfl
      · rw [paint_recoded]

theorem decodeInto_recoded (im : Image) (e : Encoding) (rect : Rect) (o : Options)
    (target : Bitmap) (stop : Stop) :
    Decoding.Renames (fun r => r.recoded e) (im.decodeInto rect o target stop).1
        ((im.recoded e).decodeInto rect o target stop).1 ∧
      ((im.recoded e).decodeInto rect o target stop).2.1 =
        (im.decodeInto rect o target stop).2.1 := by
  unfold decodeInto
  rw [plan_recoded]
  cases im.plan rect o stop with
  | error halt => exact ⟨⟨(halt.result_map _).symm, rfl, rfl⟩, rfl⟩
  | ok r =>
    have hconf : target.reconfigure (r.recoded e).width (r.recoded e).height (r.recoded e).format
        o.premultiplied = target.reconfigure r.width r.height r.format o.premultiplied := rfl
    simp only [Except.map, hconf]
    cases target.reconfigure r.width r.height r.format o.premultiplied with
    | error error => exact ⟨⟨rfl, rfl, rfl⟩, rfl⟩
    | ok bitmap =>
      refine ⟨⟨?_, ?_, rfl⟩, ?_⟩
      · rw [paint_recoded, Ending.result_map]
      · rw [paint_recoded]
      · rw [paint_recoded]

theorem plan_of_size (hwidth : im'.width = im.width) (hheight : im'.height = im.height)
    (hlimit : im'.limits.regionBytes = im.limits.regionBytes)
    (hencoding : im'.encoding = im.encoding) (hformat : o.format.isSome = true) :
    im'.plan rect o stop = im.plan rect o stop := by
  obtain ⟨format, hformat⟩ := Option.isSome_iff_exists.mp hformat
  simp only [plan, bounds, regionOf, Limits.checkRegion, hwidth, hheight, hlimit, hencoding,
    hformat, Option.getD_some]

end Image

namespace Viewer

def ShowsAs (v w : Viewer) : Prop :=
  ∀ rect o stop, o.format.isSome = true →
    Decoding.Renames (fun (b, r) => (b, r.recoded w.encoding)) (v.decode rect o stop).1
        (w.decode rect o stop).1 ∧
      ∀ target, Decoding.Renames (fun r => r.recoded w.encoding)
          (v.decodeInto rect o target stop).1 (w.decodeInto rect o target stop).1 ∧
        (w.decodeInto rect o target stop).2.1 = (v.decodeInto rect o target stop).2.1

variable {v w : Viewer} (hwidth : w.image.width = v.image.width)
  (hheight : w.image.height = v.image.height) (hallocator : w.image.allocator = v.image.allocator)

include hwidth hheight hallocator

theorem showsAs_of_echoes (hlimit : w.image.limits.regionBytes = v.image.limits.regionBytes)
    (he : ∀ c, v.image.Clamped c → w.image.Echoes v.image c) : v.ShowsAs w := by
  intro rect o stop hformat
  let named := v.image.recoded w.encoding
  have hencoding : w.image.encoding = named.encoding := rfl
  have hplan : w.image.plan rect o stop = named.plan rect o stop :=
    Image.plan_of_size hwidth hheight hlimit rfl hformat
  have hecho (c : Rect) (hc : named.bounds.intersect? rect = some c) : w.image.Echoes named c :=
    he c (Image.clamped_of_intersect? hc)
  constructor
  · have hdecode : (w.image.decode rect o stop).1 = (named.decode rect o stop).1 :=
      Image.decode_echo hencoding hplan fun c hc => ⟨hecho c hc, by rw [hallocator]; rfl⟩
    show Decoding.Renames _ (v.image.decode rect o stop).1 (w.image.decode rect o stop).1
    rw [hdecode]
    exact v.image.decode_recoded w.encoding rect o stop
  · intro target
    obtain ⟨hdecode, hpainted⟩ := Image.decodeInto_echo hencoding hplan hecho target
    obtain ⟨hrenames, hsame⟩ := v.image.decodeInto_recoded w.encoding rect o target stop
    refine ⟨?_, hpainted.trans hsame⟩
    show Decoding.Renames _ (v.image.decodeInto rect o target stop).1
      (w.image.decodeInto rect o target stop).1
    rw [hdecode]
    exact hrenames

theorem ShowsAs.delivers (h : v.ShowsAs w) {c : Rect} {o : Options} {bytes : Array UInt8}
    (hformat : o.format.isSome = true) (hd : v.image.Delivers c o bytes) :
    w.image.Delivers c o bytes := by
  have hbounds : w.image.bounds = v.image.bounds := by
    simp only [Image.bounds, hwidth, hheight]
  have hregion : w.image.regionOf c o = (v.image.regionOf c o).recoded w.encoding := by
    obtain ⟨format, hformat⟩ := Option.isSome_iff_exists.mp hformat
    simp only [Image.regionOf, hformat, Option.getD_some]
    rfl
  intro rect stop hc hstop
  rw [hbounds] at hc
  rw [hregion] at hstop ⊢
  obtain ⟨hfresh, hinto⟩ := hd rect stop hc hstop
  obtain ⟨hrenames, hsame⟩ := h rect o stop hformat
  constructor
  · intro storage ha hsize
    rw [hallocator] at ha
    obtain ⟨b, hb, hcarries⟩ := hfresh storage ha hsize
    refine ⟨b, ?_, ⟨hcarries.width, hcarries.height, hcarries.format, hcarries.premultiplied,
      hcarries.bytes⟩⟩
    exact hrenames.result.trans (by rw [show (v.decode rect o stop).1.result = _ from hb]; rfl)
  · intro target hsize
    obtain ⟨hb, hcarries⟩ := hinto target hsize
    obtain ⟨hrenames, hpainted⟩ := hsame target
    refine ⟨?_, ?_⟩
    · exact hrenames.result.trans
        (by rw [show (v.decodeInto rect o target stop).1.result = _ from hb]; rfl)
    · rw [show (w.image.decodeInto rect o target stop).2.1 = _ from hpainted]
      exact ⟨hcarries.width, hcarries.height, hcarries.format, hcarries.premultiplied,
        hcarries.bytes⟩

end Viewer

end ImageRegion
