import ImageRegion.Proofs.Sampling.Seams

namespace ImageRegion

/-- A way to cut a rectangle and the parts that come of it. In a grid all bands are cut alike. -/
inductive Cut
  | whole
  | columns (x : Int) (left right : Cut)
  | rows (y : Int) (upper lower : Cut)

namespace Cut

def parts : Cut → Rect → List Rect
  | whole, c => [c]
  | columns x left right, c => left.parts { c with right := x } ++ right.parts { c with left := x }
  | rows y upper lower, c => upper.parts { c with bottom := y } ++ lower.parts { c with top := y }

def assemble (image : Rect → Array (Array UInt8)) : Cut → Rect → Array (Array UInt8)
  | whole, c => image c
  | columns x left right, c => Array.zipWith (fun a b => a ++ b)
    (left.assemble image { c with right := x }) (right.assemble image { c with left := x })
  | rows y upper lower, c =>
    upper.assemble image { c with bottom := y } ++ lower.assemble image { c with top := y }

/-- Each cut lies inside, a multiple of `step` from where the rectangle that is cut begins. -/
inductive Aligned (step : Nat) : Cut → Rect → Prop
  | whole {c : Rect} : Aligned step whole c
  | columns {c : Rect} {x : Int} {n : Nat} {left right : Cut} (hx : x = c.left + (n * step : Nat))
      (hl : c.left < x) (hr : x < c.right) (hleft : left.Aligned step { c with right := x })
      (hright : right.Aligned step { c with left := x }) : Aligned step (columns x left right) c
  | rows {c : Rect} {y : Int} {n : Nat} {upper lower : Cut} (hy : y = c.top + (n * step : Nat))
      (ht : c.top < y) (hb : y < c.bottom) (hupper : upper.Aligned step { c with bottom := y })
      (hlower : lower.Aligned step { c with top := y }) : Aligned step (rows y upper lower) c

theorem Aligned.countP_parts {step : Nat} {cut : Cut} {c : Rect} (h : cut.Aligned step c)
    (x y : Int) :
    (cut.parts c).countP (fun p => p.Contains x y) = if c.Contains x y then 1 else 0 := by
  induction h with
  | whole => simp [parts, List.countP_cons]
  | columns _ hl hr _ _ ihl ihr =>
    rw [parts, List.countP_append, ihl, ihr]
    simp only [Rect.Contains]
    grind
  | rows _ ht hb _ _ ihu ihl =>
    rw [parts, List.countP_append, ihu, ihl]
    simp only [Rect.Contains]
    grind

end Cut

namespace Image

variable {im : Image} {c p : Rect} {o : Options} {P : Nat → Nat → Pixel} {cut : Cut}

/-- How far apart cuts have to be: whole blocks, and whole cells of the dither pattern if any. -/
def step (im : Image) (o : Options) : Nat :=
  if o.format.getD im.index.nativeFormat = .rgb565 ∧ o.dither = true then 4 * o.sampleSize
  else o.sampleSize

theorem exists_mul_step_eq (im : Image) (o : Options) (n : Nat) :
    ∃ blocks, n * im.step o = blocks * o.sampleSize ∧ (im.coding o).Repeats blocks := by
  unfold step
  split
  · exact ⟨n * 4, (Nat.mul_assoc n 4 _).symm, fun _ _ => Nat.dvd_mul_left 4 n⟩
  next hplain => exact ⟨n, rfl, fun hf hd => absurd ⟨hf, hd⟩ hplain⟩

theorem parts_beside {x : Int} {n : Nat} (hx : x = c.left + (n * im.step o : Nat))
    (hl : c.left < x) (hr : x < c.right) (hc : im.Clamped c) :
    ∃ blocks, x = c.left + (blocks * o.sampleSize : Nat) ∧ (im.coding o).Repeats blocks ∧
      c.Part { c with right := x } o.sampleSize 0 0 ∧
      c.Part { c with left := x } o.sampleSize blocks 0 := by
  obtain ⟨blocks, hn, hrepeats⟩ := im.exists_mul_step_eq o n
  rw [hn] at hx
  exact ⟨blocks, hx, hrepeats, Rect.part_left hx hl hr hc.height, Rect.part_right hx hr hc.height⟩

theorem parts_above {y : Int} {n : Nat} (hy : y = c.top + (n * im.step o : Nat))
    (ht : c.top < y) (hb : y < c.bottom) (hc : im.Clamped c) :
    ∃ blocks, y = c.top + (blocks * o.sampleSize : Nat) ∧ (im.coding o).Repeats blocks ∧
      c.Part { c with bottom := y } o.sampleSize 0 0 ∧
      c.Part { c with top := y } o.sampleSize 0 blocks := by
  obtain ⟨blocks, hn, hrepeats⟩ := im.exists_mul_step_eq o n
  rw [hn] at hy
  exact ⟨blocks, hy, hrepeats, Rect.part_upper hy ht hb hc.width, Rect.part_lower hy hb hc.width⟩

theorem byteLength_part_le {i j : Nat} (hp : c.Part p o.sampleSize i j) :
    (im.regionOf p o).byteLength ≤ (im.regionOf c o).byteLength := by
  have hleft := hp.columns.begins
  have hright := hp.columns.within
  have htop := hp.rows.begins
  have hbottom := hp.rows.within
  have hwidth : p.width ≤ c.width := by
    simp only [Rect.width]
    omega
  have hheight : p.height ≤ c.height := by
    simp only [Rect.height]
    omega
  apply Nat.mul_le_mul
  · exact Nat.mul_le_mul_right _ (Word.ceilDiv_mono hwidth)
  · exact Word.ceilDiv_mono hheight

theorem intersect?_of_clamped (h : im.Clamped c) : im.bounds.intersect? c = some c := by
  have hl := h.left
  have ht := h.top
  have hr := h.right
  have hb := h.bottom
  have hcolumns := h.columns
  have hrows := h.rows
  have hoverlap : im.bounds.overlap c = c := by
    simp only [Rect.overlap, bounds, Rect.ofSize]
    show _ = Rect.mk c.left c.top c.right c.bottom
    congr 1 <;> omega
  have hne : c.isEmpty = false := (Rect.isEmpty_eq_false c).mpr ⟨h.width, h.height⟩
  rw [Rect.intersect?, hoverlap, hne]
  rfl

theorem clamped_parts (hcut : cut.Aligned (im.step o) c) (hc : im.Clamped c) :
    ∀ p ∈ cut.parts c,
      im.Clamped p ∧ (im.regionOf p o).byteLength ≤ (im.regionOf c o).byteLength := by
  induction hcut with
  | whole =>
    intro p hp
    obtain rfl := List.mem_singleton.mp hp
    exact ⟨hc, Nat.le_refl _⟩
  | @columns c _ _ _ _ hx hl hr _ _ ihl ihr =>
    obtain ⟨_, hx, _, hpl, hpr⟩ := parts_beside hx hl hr hc
    intro p hp
    rcases List.mem_append.mp hp with hp | hp
    · obtain ⟨hclamped, hle⟩ := ihl (hc.part hpl) p hp
      exact ⟨hclamped, Nat.le_trans hle (byteLength_part_le hpl)⟩
    · obtain ⟨hclamped, hle⟩ := ihr (hc.part hpr) p hp
      exact ⟨hclamped, Nat.le_trans hle (byteLength_part_le hpr)⟩
  | @rows c _ _ _ _ hy ht hb _ _ ihu ihl =>
    obtain ⟨_, hy, _, hpu, hpl⟩ := parts_above hy ht hb hc
    intro p hp
    rcases List.mem_append.mp hp with hp | hp
    · obtain ⟨hclamped, hle⟩ := ihu (hc.part hpu) p hp
      exact ⟨hclamped, Nat.le_trans hle (byteLength_part_le hpu)⟩
    · obtain ⟨hclamped, hle⟩ := ihl (hc.part hpl) p hp
      exact ⟨hclamped, Nat.le_trans hle (byteLength_part_le hpl)⟩

section

variable (hP : im.index.Holds im.feed.stream.content P)
  (hsize : im.feed.stream.content.size ≤ 0x10000000000000000) (hs : 0 < o.sampleSize)

include hP hsize hs

theorem completes_parts_iff (hcut : cut.Aligned (im.step o) c) (hc : im.Clamped c) :
    im.Completes c o ↔ ∀ p ∈ cut.parts c, im.Completes p o := by
  induction hcut with
  | whole => simp [Cut.parts]
  | @columns c _ _ _ _ hx hl hr _ _ ihl ihr =>
    obtain ⟨_, hx, _, hpl, hpr⟩ := parts_beside hx hl hr hc
    rw [Cut.parts, List.forall_mem_append, ← ihl (hc.part hpl), ← ihr (hc.part hpr)]
    constructor
    · exact fun h => ⟨h.part hP hsize hs hc hpl, h.part hP hsize hs hc hpr⟩
    · exact fun ⟨hleft, hright⟩ => completes_of_beside hP hs hc hx hl hr hleft hright
  | @rows c _ _ _ _ hy ht hb _ _ ihu ihl =>
    obtain ⟨_, hy, _, hpu, hpl⟩ := parts_above hy ht hb hc
    rw [Cut.parts, List.forall_mem_append, ← ihu (hc.part hpu), ← ihl (hc.part hpl)]
    constructor
    · exact fun h => ⟨h.part hP hsize hs hc hpu, h.part hP hsize hs hc hpl⟩
    · exact fun ⟨hupper, hlower⟩ => completes_of_above hP hs hc hy ht hb hupper hlower

theorem lines_assemble (hcut : cut.Aligned (im.step o) c) (hc : im.Clamped c)
    (h : im.Completes c o) : im.lines c o = cut.assemble (fun p => im.lines p o) c := by
  induction hcut with
  | whole => rfl
  | @columns c _ _ _ _ hx hl hr _ _ ihl ihr =>
    obtain ⟨_, hx, hrepeats, hpl, hpr⟩ := parts_beside hx hl hr hc
    rw [lines_beside hP hsize hs h hc hx hl hr hrepeats,
      ihl (hc.part hpl) (h.part hP hsize hs hc hpl), ihr (hc.part hpr) (h.part hP hsize hs hc hpr)]
    rfl
  | @rows c _ _ _ _ hy ht hb _ _ ihu ihl =>
    obtain ⟨_, hy, hrepeats, hpu, hpl⟩ := parts_above hy ht hb hc
    rw [lines_above hP hsize hs h hc hy ht hb hrepeats,
      ihu (hc.part hpu) (h.part hP hsize hs hc hpu), ihl (hc.part hpl) (h.part hP hsize hs hc hpl)]
    rfl

end

def Shows (im : Image) (c : Rect) (o : Options) (bytes : Array UInt8) : Prop :=
  ∀ f a, f.stream.answers = im.feed.stream.answers → (im.fedBy f a).Delivers c o bytes

theorem shows_iff (hs : 0 < o.sampleSize) (hc : im.bounds.intersect? c = some c)
    (bytes : Array UInt8) :
    im.Shows c o bytes ↔ Limits.Admits im.limits.regionBytes (im.regionOf c o).byteLength ∧
      im.Completes c o ∧ bytes = (im.lines c o).flatten := by
  rw [flatten_lines]
  constructor
  · intro h
    have hdelivers : im.Delivers c o bytes := h im.feed im.allocator rfl
    obtain ⟨_, hl, hp, hbytes⟩ := hdelivers.paintable hc
    exact ⟨hl, hp, hbytes⟩
  · rintro ⟨hl, hp, rfl⟩ f a hf
    exact delivers_fedBy a hf hs hl hp

theorem size_of_mem_lines (h : im.Completes c o) {row : Array UInt8} (hrow : row ∈ im.lines c o) :
    row.size = (im.regionOf c o).format.rowBytes (im.regionOf c o).width := by
  obtain ⟨y, hy, rfl⟩ := Array.mem_map.mp hrow
  exact h.size_line (Array.mem_range.mp hy)

end Image

namespace Viewer

/-- Wherever an image is cut between its blocks, a rectangle of it can be shown just if its parts
can, and shows the rows of the parts; each of its positions is in one part. The source has to be no
longer than offsets can say. -/
theorem parts_stitch {s : Stream} {config : Config} {v : Viewer} {events : List Event} {o : Options}
    (hopen : openStream s config = (.ok v, events))
    (htiled : v.encoding.hasRandomAccess = false →
      0 < config.tileSize ∧ s.content.IsWhole v.encoding)
    (hsize : s.content.size ≤ 0x10000000000000000) (hs : 0 < o.sampleSize) :
    ∃ image : Rect → Array (Array UInt8), ∀ c (cut : Cut), v.image.bounds.intersect? c = some c →
      cut.Aligned (v.image.step o) c →
      (∀ x y, (cut.parts c).countP (fun p => p.Contains x y) = if c.Contains x y then 1 else 0) ∧
      (∀ p ∈ cut.parts c, v.image.bounds.intersect? p = some p ∧
        (image p).size = (v.image.regionOf p o).height ∧
        (v.image.Shows p o (image p).flatten → ∀ row ∈ image p,
          row.size = (v.image.regionOf p o).format.rowBytes (v.image.regionOf p o).width)) ∧
      ∀ bytes, v.image.Shows c o bytes ↔
        Limits.Admits v.image.limits.regionBytes (v.image.regionOf c o).byteLength ∧
          (∀ p ∈ cut.parts c, v.image.Shows p o (image p).flatten) ∧
          bytes = (cut.assemble image c).flatten := by
  have hopened := opened_of_openStream hopen
  obtain ⟨P, hP⟩ := hopened.holds htiled
  obtain ⟨position, hstream⟩ := hopened.stream
  have hsize : v.image.feed.stream.content.size ≤ 0x10000000000000000 := by
    rw [hstream]
    exact hsize
  refine ⟨fun p => v.image.lines p o, fun c cut hc hcut => ?_⟩
  have hclamped := Image.clamped_of_intersect? hc
  have hparts := Image.clamped_parts hcut hclamped
  have hinside (p : Rect) (hp : p ∈ cut.parts c) := Image.intersect?_of_clamped (hparts p hp).1
  have hcompletes := Image.completes_parts_iff hP hsize hs hcut hclamped
  refine ⟨hcut.countP_parts, fun p hp => ⟨hinside p hp, ?_, ?_⟩, fun bytes => ?_⟩
  · show (v.image.lines p o).size = (v.image.regionOf p o).height
    rw [Image.lines, Array.size_map, Array.size_range]
  · intro hshows row hrow
    obtain ⟨_, hcomplete, _⟩ := (Image.shows_iff hs (hinside p hp) _).mp hshows
    exact Image.size_of_mem_lines hcomplete hrow
  · rw [Image.shows_iff hs hc]
    constructor
    · rintro ⟨hl, hcomplete, rfl⟩
      refine ⟨hl, fun p hp => ?_, ?_⟩
      · apply (Image.shows_iff hs (hinside p hp) _).mpr
        refine ⟨fun m hm => ?_, hcompletes.mp hcomplete p hp, rfl⟩
        exact Nat.le_trans (hparts p hp).2 (hl m hm)
      · rw [Image.lines_assemble hP hsize hs hcut hclamped hcomplete]
    · rintro ⟨hl, hshows, rfl⟩
      have hcomplete : v.image.Completes c o := hcompletes.mpr fun p hp =>
        ((Image.shows_iff hs (hinside p hp) _).mp (hshows p hp)).2.1
      rw [Image.lines_assemble hP hsize hs hcut hclamped hcomplete]
      exact ⟨hl, hcomplete, rfl⟩

def rampBytes : Array UInt8 :=
  #[0x50, 0x35, 0x20, 0x35, 0x20, 0x35, 0x20, 0x32, 0x35, 0x35, 0x0A,
    0, 10, 20, 30, 40, 50, 60, 70, 80, 90, 100, 110, 120, 130, 140, 150, 160, 170, 180, 190, 200,
    210, 220, 230, 240]

def ramp : Viewer :=
  ⟨⟨.pnm, .heap, .none, .pnm ⟨1, 5, 5, 255, 11⟩, .ofStream ((Stream.ofBytes rampBytes).turned 36)⟩,
    5, 5⟩

theorem inMemory_ramp : (Stream.ofBytes rampBytes).InMemory := Stream.inMemory_ofBytes _

theorem openStream_ramp : openStream (.ofBytes rampBytes) .standard =
    (.ok ramp, [.pnmIndexed 5 5 1 255 11, .opened .pnm 5 5]) := by
  have hprobe : Probe.ofStream (.ofBytes rampBytes) =
      (.ok ⟨.pnm, .heap⟩, (Stream.ofBytes rampBytes).turned 12) := by
    unfold Probe.ofStream
    rw [inMemory_ramp.readExactAt_eq (by decide) (by decide)]
    rfl
  refine openStream_of_index rfl hprobe ?_
  unfold Probe.index Index.build Netpbm.Header.ofStream
  rw [(inMemory_ramp.turned 12).readExactAt_eq (by decide) (by decide)]
  rfl

theorem parts_stitch_of_ramp :
    let o : Options := ⟨1, some .rgb565, true, true, false⟩
    ∃ image : Rect → Array (Array UInt8),
      ramp.image.Shows ⟨0, 0, 4, 4⟩ o (image ⟨0, 0, 4, 4⟩).flatten ∧
      ramp.image.Shows ⟨0, 4, 4, 5⟩ o (image ⟨0, 4, 4, 5⟩).flatten ∧
      ramp.image.Shows ⟨4, 0, 5, 5⟩ o (image ⟨4, 0, 5, 5⟩).flatten ∧
      ramp.image.Shows ⟨0, 0, 5, 5⟩ o (Array.zipWith (fun a b => a ++ b)
        (image ⟨0, 0, 4, 4⟩ ++ image ⟨0, 4, 4, 5⟩) (image ⟨4, 0, 5, 5⟩)).flatten := by
  intro o
  have hc : ramp.image.bounds.intersect? ⟨0, 0, 5, 5⟩ = some ⟨0, 0, 5, 5⟩ := by decide
  have hkept := (opened_of_openStream openStream_ramp).kept (fun _ => ⟨inMemory_ramp, by decide⟩)
    (fun he => by cases he)
  have hcut : (Cut.columns 4 (.rows 4 .whole .whole) .whole).Aligned (ramp.image.step o)
      ⟨0, 0, 5, 5⟩ :=
    .columns (n := 1) rfl (by decide) (by decide)
      (.rows (n := 1) rfl (by decide) (by decide) .whole .whole) .whole
  obtain ⟨image, himage⟩ := parts_stitch (o := o) openStream_ramp (fun he => by cases he)
    (by decide) (by decide)
  obtain ⟨_, _, hstitch⟩ := himage _ _ hc hcut
  have hclamped := Image.clamped_of_intersect? hc
  have hcomplete : ramp.image.Completes ⟨0, 0, 5, 5⟩ o :=
    Image.paintable_of_reads hclamped (by decide) fun j _ hj => hkept.reads _ hclamped j hj
  have hunlimited (n : Nat) : Limits.Admits ramp.image.limits.regionBytes n := by
    intro _ hm
    cases hm
  have hshows := (Image.shows_iff (by decide) hc _).mpr ⟨hunlimited _, hcomplete, rfl⟩
  obtain ⟨hl, hparts, hbytes⟩ := (hstitch _).mp hshows
  refine ⟨image, ?_, ?_, ?_, ?_⟩
  · exact hparts _ (by simp [Cut.parts])
  · exact hparts _ (by simp [Cut.parts])
  · exact hparts _ (by simp [Cut.parts])
  · exact hbytes ▸ hshows

end Viewer

end ImageRegion
