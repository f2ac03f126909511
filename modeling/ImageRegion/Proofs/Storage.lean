import ImageRegion.Proofs.History
import ImageRegion.Proofs.Image.Completion
import ImageRegion.Proofs.Sampling.Averages

namespace ImageRegion

structure Bitmap.Carries (b : Bitmap) (r : Region) (o : Options) (bytes : Array UInt8) : Prop where
  width : b.width = r.width
  height : b.height = r.height
  format : b.format = r.format
  premultiplied : b.premultiplied = o.premultiplied
  bytes : b.bytes = bytes

namespace Image

def shown (im : Image) (r : Region) (o : Options) : Array UInt8 :=
  (o.painting r).band (im.rows r o) r.height

def Delivers (im : Image) (c : Rect) (o : Options) (bytes : Array UInt8) : Prop :=
  ∀ rect stop, im.bounds.intersect? rect = some c →
    (∀ k ≤ (im.regionOf c o).height, stop k = none) →
    (∀ storage, im.allocator.allot (im.regionOf c o).byteLength = .storage storage →
      (im.regionOf c o).byteLength ≤ storage.size →
      ∃ b, (im.decode rect o stop).1.result = .ok (.decoded (b, im.regionOf c o)) ∧
        b.Carries (im.regionOf c o) o bytes) ∧
    ∀ target : Bitmap, (im.regionOf c o).byteLength ≤ target.capacity →
      (im.decodeInto rect o target stop).1.result = .ok (.decoded (im.regionOf c o)) ∧
        (im.decodeInto rect o target stop).2.1.Carries (im.regionOf c o) o bytes

variable {im : Image} {c : Rect} {o : Options} {r : Region}

theorem size_shown (h : (o.painting r).Paintable (im.rows r o)) :
    (im.shown r o).size = r.byteLength := by
  refine (h.size_band (Nat.le_refl _)).trans ?_
  exact Nat.mul_comm _ _

theorem carries_overwrite_shown (h : (o.painting r).Paintable (im.rows r o)) (b : Bitmap) :
    ((b.shaped r o).overwrite (im.shown r o)).Carries r o (im.shown r o) := by
  refine ⟨rfl, rfl, rfl, rfl, ?_⟩
  apply Bitmap.bytes_overwrite
  exact size_shown h

theorem delivers_of_paintable (hs : 0 < o.sampleSize)
    (hl : Limits.Admits im.limits.regionBytes (im.regionOf c o).byteLength)
    (h : (o.painting (im.regionOf c o)).Paintable (im.rows (im.regionOf c o) o)) :
    im.Delivers c o (im.shown (im.regionOf c o) o) := by
  intro rect stop hc hstop
  have hplan := plan_eq_ok hs (hstop 0 (Nat.zero_le _)) hc hl
  constructor
  · intro storage ha _
    refine ⟨_, (decode_passes h hplan ha hstop).1, ?_⟩
    exact carries_overwrite_shown h (.ofStorage storage 0 0 .rgba8 false)
  · intro target hsize
    obtain ⟨hresult, _, hpainted⟩ := decodeInto_passes h hplan hsize hstop
    refine ⟨hresult, ?_⟩
    rw [hpainted]
    have hcarries := carries_overwrite_shown h target
    exact ⟨rfl, rfl, rfl, rfl, hcarries.bytes⟩

theorem delivers_fedBy {f : Feed} (a : Allocator)
    (hf : f.stream.answers = im.feed.stream.answers) (hs : 0 < o.sampleSize)
    (hl : Limits.Admits im.limits.regionBytes (im.regionOf c o).byteLength)
    (h : (o.painting (im.regionOf c o)).Paintable (im.rows (im.regionOf c o) o)) :
    (im.fedBy f a).Delivers c o (im.shown (im.regionOf c o) o) := by
  have hrows : (im.fedBy f a).rows (im.regionOf c o) o = im.rows (im.regionOf c o) o :=
    congrArg ((o.painting (im.regionOf c o)).sourceRows im.index) hf
  have hshown : (im.fedBy f a).shown (im.regionOf c o) o = im.shown (im.regionOf c o) o :=
    congrArg (fun rows => (o.painting (im.regionOf c o)).band rows _) hrows
  have hp : (o.painting (im.regionOf c o)).Paintable ((im.fedBy f a).rows (im.regionOf c o) o) :=
    hrows ▸ h
  have hdelivers : (im.fedBy f a).Delivers c o ((im.fedBy f a).shown (im.regionOf c o) o) :=
    delivers_of_paintable hs hl hp
  exact hshown ▸ hdelivers

theorem admits_of_plan {rect : Rect} {stop : Stop} (h : im.plan rect o stop = .ok r) :
    Limits.Admits im.limits.regionBytes r.byteLength := by
  obtain ⟨hs, hstop, c, hc, rfl⟩ := plan_ok h
  unfold plan at h
  simp only [Nat.ne_of_gt hs, if_false, hstop, hc] at h
  rw [← Limits.check_eq_ok_iff .regionBytes]
  cases hl : im.limits.checkRegion (im.regionOf c o).byteLength with
  | error excess => simp only [hl, reduceCtorEq] at h
  | ok _ => exact hl

theorem Delivers.paintable {bytes : Array UInt8} (h : im.Delivers c o bytes)
    (hc : im.bounds.intersect? c = some c) :
    0 < o.sampleSize ∧ Limits.Admits im.limits.regionBytes (im.regionOf c o).byteLength ∧
      (o.painting (im.regionOf c o)).Paintable (im.rows (im.regionOf c o) o) ∧
      bytes = im.shown (im.regionOf c o) o := by
  let target : Bitmap := ⟨0, 0, .rgba8, false, 0, .replicate (im.regionOf c o).byteLength 0⟩
  have hsize : (im.regionOf c o).byteLength ≤ target.capacity :=
    Nat.le_of_eq Array.size_replicate.symm
  obtain ⟨hresult, hcarries⟩ := (h c .never hc (Stop.never_passes _)).2 target hsize
  obtain ⟨hplan, _, hended⟩ := decodeInto_decoded hresult
  have hp := paintable_of_finished hended
  refine ⟨(plan_ok hplan).1, admits_of_plan hplan, hp, ?_⟩
  rw [← hcarries.bytes, (decodeInto_passes hp hplan hsize (Stop.never_passes _)).2.2]
  exact (carries_overwrite_shown hp target).bytes

end Image

/-- What comes of a call, if anything does, is as `P` says; and something does if `fits`. -/
structure ComesTo {α : Type} (fits : Prop) (result : Except Failure α) (P : α → Prop) : Prop where
  sound : ∀ a, result = .ok a → P a
  total : fits → ∃ a, result = .ok a

section ComesTo

variable {α : Type} {fits : Prop} {result : Except Failure α} {P : α → Prop}

theorem comesTo_of_ok {a : α} (h : result = .ok a) (ha : P a) : ComesTo fits result P := by
  refine ⟨fun a' h' => ?_, fun _ => ⟨a, h⟩⟩
  cases h.symm.trans h'
  exact ha

theorem ComesTo.exists_ok (h : ComesTo fits result P) (hfits : fits) :
    ∃ a, result = .ok a ∧ P a := by
  obtain ⟨a, ha⟩ := h.total hfits
  exact ⟨a, ha, h.sound a ha⟩

end ComesTo

namespace Viewer

variable {v : Viewer} {rect : Rect} {format : Option PixelFormat} {sampleSize : Nat}

theorem decodeRegion_fresh {b : Bitmap} {r : Region}
    (h : (v.decode rect (plainOptions format sampleSize) .never).1.result =
      .ok (.decoded (b, r))) :
    (v.decodeRegion none rect format sampleSize).1 = .ok (some b) := by
  simp only [decodeRegion, Decoding.toExcept, h]
  rfl

theorem decodeRegion_into {target : Bitmap} {r : Region}
    (h : (v.decodeInto rect (plainOptions format sampleSize) target .never).1.result =
      .ok (.decoded r)) :
    (v.decodeRegion (some target) rect format sampleSize).1 = .ok none ∧
      (v.decodeRegion (some target) rect format sampleSize).2.1 =
        some (v.decodeInto rect (plainOptions format sampleSize) target .never).2.1 := by
  simp only [decodeRegion, Decoding.toExcept, h]
  exact ⟨rfl, trivial⟩

/-- All ways to ask for a part of a readable image come to the same bytes. They all come to some
where no sum that is averaged can pass its word, and then the sums are exact. -/
theorem decodes_agree_on_bytes {c : Rect} {o : Options} {r : Region}
    (hc : v.image.bounds.intersect? rect = some c) (hr : v.image.regionOf c o = r)
    (hs : 0 < o.sampleSize) (hl : Limits.Admits v.image.limits.regionBytes r.byteLength)
    (hreads : ∀ j, c.top.toNat ≤ j → j < c.bottom.toNat → v.image.Reads c j) :
    (c.BlocksFit o → o.quality = true → ∀ P,
      v.image.index.Holds v.image.feed.stream.content P → v.image.SumsExact c o P) ∧
    ∃ bytes, bytes.size = r.byteLength ∧
      ∀ (held : Holding) (f : Feed) (a : Allocator),
        held.viewer? = some (v.fedBy f a) → f.stream.answers = v.image.feed.stream.answers →
        (∀ stop, (∀ k ≤ r.height, stop k = none) →
          (∀ storage, a.allot r.byteLength = .storage storage → r.byteLength ≤ storage.size →
            ComesTo (c.BlocksFit o) (held.decode rect o stop).1.result fun outcome =>
              ∃ b, outcome = .decoded (b, r) ∧ b.Carries r o bytes) ∧
          ∀ target : Bitmap, r.byteLength ≤ target.capacity →
            ComesTo (c.BlocksFit o) (held.decodeInto rect o target stop).1.result fun outcome =>
              outcome = .decoded r ∧
                (held.decodeInto rect o target stop).2.1.Carries r o bytes) ∧
        ∀ format sampleSize, plainOptions format sampleSize = o →
          (∀ storage, a.allot r.byteLength = .storage storage → r.byteLength ≤ storage.size →
            ComesTo (c.BlocksFit o) ((v.fedBy f a).decodeRegion none rect format sampleSize).1
              fun given => ∃ b, given = some b ∧ b.Carries r o bytes) ∧
          ∀ target : Bitmap, r.byteLength ≤ target.capacity →
            ComesTo (c.BlocksFit o)
              ((v.fedBy f a).decodeRegion (some target) rect format sampleSize).1 fun given =>
                given = none ∧
                  ∃ b, ((v.fedBy f a).decodeRegion (some target) rect format sampleSize).2.1 =
                    some b ∧ b.Carries r o bytes := by
  subst hr
  have hclamped := Image.clamped_of_intersect? hc
  have hp := Image.paintable_of_reads hclamped hs hreads
  refine ⟨fun hfits hq P hP => ?_, v.image.shown (v.image.regionOf c o) o, Image.size_shown hp, ?_⟩
  · exact Image.sumsExact_of_card hP hclamped hs hreads fun x _ y _ => hfits hq x y
  intro held f a hv hf
  have hdelivers : (v.fedBy f a).image.Delivers c o (v.image.shown (v.image.regionOf c o) o) :=
    Image.delivers_fedBy a hf hs hl hp
  constructor
  · intro stop hstop
    obtain ⟨hfresh, hinto⟩ := hdelivers rect stop hc hstop
    constructor
    · intro storage ha hsize
      rw [(Holding.decode_of_viewer? hv rect o stop).1]
      obtain ⟨b, hresult, hb⟩ := hfresh storage ha hsize
      exact comesTo_of_ok hresult ⟨b, rfl, hb⟩
    · intro target hsize
      obtain ⟨hd, ht, _⟩ := Holding.decodeInto_of_viewer? hv rect o target stop
      rw [hd, ht]
      obtain ⟨hresult, hb⟩ := hinto target hsize
      exact comesTo_of_ok hresult ⟨rfl, hb⟩
  · rintro format sampleSize rfl
    obtain ⟨hfresh, hinto⟩ := hdelivers rect .never hc (Stop.never_passes _)
    constructor
    · intro storage ha hsize
      obtain ⟨b, hresult, hb⟩ := hfresh storage ha hsize
      exact comesTo_of_ok (decodeRegion_fresh hresult) ⟨b, rfl, hb⟩
    · intro target hsize
      obtain ⟨hresult, hb⟩ := hinto target hsize
      obtain ⟨hnone, htarget⟩ := decodeRegion_into hresult
      exact comesTo_of_ok hnone ⟨rfl, _, htarget, hb⟩

theorem decodes_agree_on_bytes_of_stamp :
    let v : Viewer := ⟨Image.stamp, 3, 2⟩
    let h := (Catalogue.empty.insert v).1
    let shelf := (Catalogue.empty.insert v).2
    let old : Bitmap := ⟨1, 9, .rgba8, false, 3, .replicate 40 7⟩
    ∃ fresh reused, (shelf.decode h ⟨0, 0, 3, 9⟩ (plainOptions (some .rgb565) 2) .never).1.result =
        .ok (.decoded (fresh, ⟨2, 1, .rgb565, ⟨0, 0, 3, 2⟩, 2, .png⟩)) ∧
      (v.decodeRegion (some old) ⟨0, 0, 3, 9⟩ (some .rgb565) 2).2.1 = some reused ∧
      reused.bytes = fresh.bytes := by
  intro v h shelf old
  have hc : v.image.bounds.intersect? ⟨0, 0, 3, 9⟩ = some ⟨0, 0, 3, 2⟩ := by decide
  have hr : v.image.regionOf ⟨0, 0, 3, 2⟩ (plainOptions (some .rgb565) 2) =
      ⟨2, 1, .rgb565, ⟨0, 0, 3, 2⟩, 2, .png⟩ := by decide
  obtain ⟨_, bytes, _, hagree⟩ := decodes_agree_on_bytes hc hr (by decide)
    (fun _ hm => by cases hm) fun j _ hj => Image.reads_stamp hc hj
  obtain ⟨hany, hplain⟩ := hagree (.shelved shelf h) v.image.feed .heap rfl rfl
  obtain ⟨_, hfresh, fresh, rfl, hf⟩ :=
    ((hany .never (Stop.never_passes _)).1 (.replicate 4 0) rfl (by decide)).exists_ok nofun
  obtain ⟨_, _, _, reused, hreused, hb⟩ := ((hplain _ _ rfl).2 old (by decide)).exists_ok nofun
  exact ⟨fresh, reused, hfresh, hreused, hb.bytes.trans hf.bytes.symm⟩

end Viewer

end ImageRegion
