import ImageRegion.Proofs.Coverage
import ImageRegion.Proofs.Premultiplication

namespace ImageRegion

def Pixel.visible (p : Pixel) : Pixel := if p.alpha = 0 then .clear else p

theorem Pixel.visible_of_ne {p : Pixel} (h : p.alpha ≠ 0) : p.visible = p := if_neg h

namespace Tally

theorem round_mul (c : UInt8) {n : Nat} (hpos : 0 < n) (hle : n ≤ 255) :
    round (.ofNat (c.toNat * n)) (.ofNat n) = c := by
  have hc := c.toNat_lt
  have hproduct : c.toNat * n ≤ 255 * 255 := Nat.mul_le_mul (by omega) hle
  have hquot : (c.toNat * n + n / 2) / n = c.toNat := by
    rw [Nat.mul_comm, Nat.mul_add_div hpos, Nat.div_eq_of_lt (Nat.div_lt_self hpos Nat.one_lt_two),
      Nat.add_zero]
  apply UInt8.toNat_inj.mp
  rw [round_toNat (by omega) (by omega) (by omega), hquot]

theorem average_add_zero (p : Pixel) : (zero.add p).average 1 = p.visible := by
  have hle := p.opacity_le
  have hp : zero.add p = counting fun w => w p := by
    rw [← counting_zero, counting_add]
    simp only [Nat.zero_add]
  rw [hp]
  by_cases h : p.alpha = 0
  · have halpha : p.opacity = 0 := by
      rw [Pixel.opacity, h]
      rfl
    simp only [average, counting, Pixel.visible, h, halpha, if_true]
    rfl
  · have hpos : 0 < p.opacity := by
      apply Nat.pos_of_ne_zero
      exact fun hz => h (UInt8.toNat_inj.mp hz)
    have hne : UInt64.ofNat p.opacity ≠ 0 := by
      intro hz
      have := congrArg UInt64.toNat hz
      rw [UInt64.toNat_ofNat', UInt64.toNat_zero] at this
      omega
    have halpha : round (.ofNat p.opacity) 1 = p.alpha := by
      have hone := round_mul p.alpha Nat.one_pos (by decide)
      rw [Nat.mul_one] at hone
      exact hone
    simp only [average, counting, hne, if_false, Pixel.tint, round_mul _ hpos hle, halpha,
      Pixel.visible_of_ne h]

theorem average_extract (row : Array Pixel) (x : Nat) :
    ((row.extract x (x + 1)).foldl add zero).average 1 = (row.getD x .clear).visible := by
  rw [Array.getD_eq_getD_getElem?]
  by_cases hx : x < row.size
  · have hpush : row.extract x (x + 1) = (row.extract x x).push row[x] := by
      rw [Array.push_extract_getElem, Nat.min_self]
    rw [hpush, Array.extract_empty_of_stop_le_start (Nat.le_refl x), Array.foldl_push,
      Array.foldl_empty, Array.getElem?_eq_getElem hx]
    exact average_add_zero row[x]
  · rw [Array.extract_empty_of_size_le_start (Nat.le_of_not_lt hx),
      Array.getElem?_eq_none (Nat.le_of_not_lt hx)]
    rfl

end Tally

theorem Coding.pixel_visible {k : Coding} {x y : Nat} {p : Pixel}
    (h : k.format = .alpha8 ∨ k.format = .rgba8 ∧ k.premultiply = true) :
    k.pixel x y p.visible = k.pixel x y p := by
  by_cases hp : p.alpha = 0
  · have hv : p.visible = .clear := if_pos hp
    obtain ⟨format, m, dither⟩ := k
    rcases h with rfl | ⟨rfl, rfl⟩
    · simp only [pixel, hv, hp]
      rfl
    · rw [pixel_premultiplied, pixel_premultiplied, hv,
        (p.premultiplies_premultiplied).clear hp]
      rfl
  · rw [Pixel.visible_of_ne hp]

def Index.Draws (index : Index) (answers : Answers) (P : Nat → Nat → Pixel) : Prop :=
  ∀ x count y row, x + count ≤ index.width → y < index.height →
    index.rowOf answers x count y = .ok row → row = Array.ofFn fun i : Fin count => P (x + i) y

theorem Index.draws_tiled (m : Mosaic) (answers : Answers) :
    (tiled m).Draws answers fun x y => m.pixelAt y x := by
  intro x count y row _ _ hr
  simp only [rowOf, Mosaic.readRow] at hr
  split at hr
  · cases hr
  · cases hr
    rfl

theorem Index.Built.draws {s : Stream} {config : Config} {encoding : Encoding} {index : Index}
    (h : Built s config encoding index) :
    ∃ P, ((encoding.hasRandomAccess = false → 0 < config.tileSize ∧ s.content.IsWhole encoding) →
      index.Holds s.content P) ∧ index.Draws s.answers P := by
  by_cases ht : encoding.hasRandomAccess = false →
      0 < config.tileSize ∧ s.content.IsWhole encoding
  · obtain ⟨P, hP⟩ := h.holds ht
    exact ⟨P, fun _ => hP, fun _ _ _ _ hx hy hr => rowOf_eq_of_holds hP hx hy hr⟩
  · cases h with
    | pnm => exact absurd (fun he => by cases he) ht
    | farbfeld => exact absurd (fun he => by cases he) ht
    | tiled => exact ⟨_, fun h => absurd h ht, draws_tiled _ _⟩

namespace Image

section

variable {im : Image} {rect c : Rect} {o : Options} {x y : Nat} (hc : im.Clamped c)
  (hs : o.sampleSize = 1)

include hc hs

theorem rows_full_size (hy : y < (im.regionOf c o).height) :
    (im.regionOf c o).rows y = ⟨c.top.toNat + y, c.top.toNat + y + 1⟩ := by
  have hfirst := first_lt_bottom hc (hs ▸ Nat.one_pos) hy
  rw [hs] at hfirst
  rw [rows_regionOf hc, hs, Nat.mul_one, Nat.min_eq_left (by omega)]

theorem columns_full_size (hx : x < (im.regionOf c o).width) :
    (im.regionOf c o).columns x = ⟨x, x + 1⟩ := by
  obtain ⟨hwidth, _⟩ := @sampleSize_one im c o hs
  rw [columns_regionOf hc, hs, Nat.mul_one, Nat.min_eq_left (by omega)]

theorem centreRow_full_size (hy : y < (im.regionOf c o).height) :
    (im.regionOf c o).centreRow y = c.top.toNat + y := by
  have hfirst := first_lt_bottom hc (hs ▸ Nat.one_pos) hy
  rw [hs] at hfirst
  rw [centreRow_eq hc (hs ▸ Nat.one_pos), hs]
  omega

theorem centreColumn_full_size (hx : x < (im.regionOf c o).width) :
    (im.regionOf c o).centreColumn x = x := by
  obtain ⟨hwidth, _⟩ := @sampleSize_one im c o hs
  have hcolumn := centreColumn_eq hc (hs ▸ Nat.one_pos) (o := o) x
  have hl := hc.left
  rw [hs] at hcolumn
  rw [hwidth, Rect.width] at hx
  omega

theorem sampled_full_size (rows : SourceRows) (hy : y < (im.regionOf c o).height) :
    (o.painting (im.regionOf c o)).sampled rows y =
      (rows (c.top.toNat + y)).map fun row =>
        Array.ofFn fun x : Fin (im.regionOf c o).width =>
          if o.quality then (row.getD x .clear).visible else row.getD x .clear := by
  let r := im.regionOf c o
  have hrow := centreRow_full_size hc hs hy
  have hrows := rows_full_size hc hs hy
  unfold Painting.sampled
  cases hq : o.quality with
  | false =>
    simp only [Options.painting, hq, Bool.false_eq_true, if_false, Painting.picked, hrow]
    cases rows (c.top.toNat + y) with
    | error failure => rfl
    | ok row =>
      simp only [Except.map]
      congr 2
      funext x
      rw [centreColumn_full_size hc hs x.isLt]
  | true =>
    simp only [Options.painting, hq, if_true, Painting.averaged, hrows, Span.length,
      Nat.add_sub_cancel_left, Painting.tallied]
    cases rows (c.top.toNat + y) with
    | error failure => rfl
    | ok row =>
      simp only [Except.map]
      congr 1
      apply Array.ext
      · simp [Painting.tallyRow]
      · intro x hx _
        have hlt : x < (im.regionOf c o).width := by simpa [Painting.tallyRow] using hx
        simp only [Painting.tallyRow, Array.getElem_mapIdx, Array.getElem_replicate,
          Array.getElem_ofFn, columns_full_size hc hs hlt, Nat.add_sub_cancel_left]
        exact Tally.average_extract row x

end

theorem paces_full_size (im : Image) (rect : Rect) {o : Options} (hs : o.sampleSize = 1)
    (quality : Bool) : im.Paces rect o { o with quality := quality } := by
  refine ⟨rfl, rfl, fun c hc _ => ⟨rfl, fun y hy => ?_⟩⟩
  have hclamped := clamped_of_intersect? hc
  have hrows := sampled_full_size hclamped hs (im.rows (im.regionOf c o) o) hy
  have hrows' := sampled_full_size (o := { o with quality := quality }) hclamped hs
    (im.rows (im.regionOf c o) o) hy
  rw [hrows]
  refine (congrArg (Except.map fun _ => ()) hrows').trans ?_
  cases im.rows (im.regionOf c o) o (c.top.toNat + y) <;> rfl

theorem Gives.pixel_full_size {im : Image} {rect : Rect} {o : Options} {f : Feed} {a : Allocator}
    {b : Bitmap} {r : Region} {P : Nat → Nat → Pixel} (hs : o.sampleSize = 1)
    (hP : im.index.Draws im.feed.stream.answers P)
    (hf : f.stream.answers = im.feed.stream.answers) (h : (im.fedBy f a).Gives rect o b r)
    {x y : Nat} (hx : x < r.width) (hy : y < r.height) :
    let p := P (r.left + x) (r.rect.top.toNat + y)
    b.pixelBytes x y = Coding.pixel ⟨r.format, o.premultiplied, o.dither⟩ x y
      (if o.quality then p.visible else p) := by
  intro p
  obtain ⟨row, shown, hsampled, hshown, hpixel⟩ := h.pixelBytes_eq hf hx hy
  obtain ⟨_, c, hc, rfl⟩ := h.region
  have hclamped := clamped_of_intersect? hc
  obtain ⟨hwidth, hheight⟩ := @sampleSize_one im c o hs
  rw [sampled_full_size hclamped hs _ hy] at hsampled
  cases hsource : im.rows (im.regionOf c o) o (c.top.toNat + y) with
  | error failure =>
    rw [hsource] at hsampled
    cases hsampled
  | ok source =>
    rw [hsource] at hsampled
    cases hsampled
    have hsource : im.index.rowOf im.feed.stream.answers c.left.toNat c.width (c.top.toNat + y) =
        .ok source := hsource
    have hl := hclamped.left
    have hr := hclamped.right
    have ht := hclamped.top
    have hb := hclamped.bottom
    have hw := hclamped.width
    simp only [Image.width, Image.height] at hr hb
    have hin : source.getD x .clear = p := by
      have hcolumns : c.left.toNat + c.width ≤ im.index.width := by
        simp only [Rect.width]
        omega
      have hrow : c.top.toNat + y < im.index.height := by
        simp only [hheight, Rect.height] at hy
        omega
      rw [hP _ _ _ _ hcolumns hrow hsource, Array.getD_eq_getD_getElem?, Array.getElem?_ofFn,
        dif_pos (hwidth ▸ hx), Option.getD_some]
      rfl
    rw [Array.getElem?_ofFn, dif_pos hx] at hshown
    cases hshown
    rw [hpixel]
    simp only [hin]

end Image

/-- At full size the same request for speed and for quality comes to the same end, in as many
checks. The bitmaps differ at most where the source is transparent, and there only in what is
written of a colour that cannot be seen. -/
theorem Viewer.full_size_modes_agree {s : Stream} {config : Config} {v : Viewer}
    {events : List Event} {o : Options} (hopen : openStream s config = (.ok v, events))
    (hs : o.sampleSize = 1) :
    let fast : Options := { o with quality := false }
    let fine : Options := { o with quality := true }
    (∀ f a rect stop,
      ((v.fedBy f a).decode rect fine stop).1.map Prod.snd =
        ((v.fedBy f a).decode rect fast stop).1.map Prod.snd ∧
      ∀ target, ((v.fedBy f a).decodeInto rect fine target stop).1 =
        ((v.fedBy f a).decodeInto rect fast target stop).1) ∧
    ∃ P, ((v.encoding.hasRandomAccess = false →
        0 < config.tileSize ∧ s.content.IsWhole v.encoding) → v.image.index.Holds s.content P) ∧
      v.image.index.Draws s.answers P ∧
      ∀ (f f' : Feed) (a a' : Allocator), f.stream.answers = s.answers →
        f'.stream.answers = s.answers → ∀ rect b b' r r',
        (v.fedBy f a).image.Gives rect fast b r → (v.fedBy f' a').image.Gives rect fine b' r' →
        r' = r ∧ (r.format = .alpha8 ∨ r.format = .rgba8 ∧ o.premultiplied = true →
          b'.bytes = b.bytes) ∧
        ∀ x < r.width, ∀ y < r.height,
          let p := P (r.left + x) (r.rect.top.toNat + y)
          let k : Coding := ⟨r.format, o.premultiplied, o.dither⟩
          b.pixelBytes x y = k.pixel x y p ∧
            b'.pixelBytes x y = k.pixel x y (if p.alpha = 0 then .clear else p) := by
  intro fast fine
  have hopened := opened_of_openStream hopen
  obtain ⟨position, hstream⟩ := hopened.stream
  obtain ⟨P, hholds, hdraws⟩ := hopened.built.draws
  have hanswers : v.image.feed.stream.answers = s.answers := by
    rw [hstream, Stream.answers_turned]
  constructor
  · intro f a rect stop
    have hpaces : (v.fedBy f a).image.Paces rect fast fine :=
      Image.paces_full_size _ rect (o := fast) hs true
    exact ⟨hpaces.decode_eq stop, fun target => hpaces.decodeInto_eq target stop⟩
  · refine ⟨P, hholds, hdraws, ?_⟩
    rw [← hanswers] at hdraws ⊢
    intro f f' a a' hf hf' rect b b' r r' h h'
    obtain rfl : r' = r := h.region_eq h' rfl rfl
    have hfast {x y : Nat} (hx : x < r'.width) (hy : y < r'.height) :=
      h.pixel_full_size (show fast.sampleSize = 1 from hs) hdraws hf hx hy
    have hfine {x y : Nat} (hx : x < r'.width) (hy : y < r'.height) :=
      h'.pixel_full_size (show fine.sampleSize = 1 from hs) hdraws hf' hx hy
    refine ⟨rfl, fun hformat => h.bytes_ext h' fun x hx y hy => ?_,
      fun x hx y hy => ⟨hfast hx hy, hfine hx hy⟩⟩
    rw [hfast hx hy, hfine hx hy]
    exact Coding.pixel_visible hformat

def ghostBytes : Array UInt8 :=
  #[0x66, 0x61, 0x72, 0x62, 0x66, 0x65, 0x6C, 0x64, 0, 0, 0, 2, 0, 0, 0, 1,
    0xFF, 0xFF, 0, 0, 0, 0, 0, 0, 0xFF, 0xFF, 0, 0, 0, 0, 0x80, 0]

def Viewer.ghost : Viewer :=
  ⟨⟨.farbfeld, .heap, .none, .farbfeld ⟨2, 1⟩, .ofStream ((Stream.ofBytes ghostBytes).turned 16)⟩,
    2, 1⟩

theorem Viewer.openStream_ghost : openStream (.ofBytes ghostBytes) .standard =
    (.ok ghost, [.farbfeldIndexed 2 1, .opened .farbfeld 2 1]) := by
  have hmemory : (Stream.ofBytes ghostBytes).InMemory := Stream.inMemory_ofBytes _
  have hprobe : Probe.ofStream (.ofBytes ghostBytes) =
      (.ok ⟨.farbfeld, .heap⟩, (Stream.ofBytes ghostBytes).turned 12) := by
    unfold Probe.ofStream
    rw [hmemory.readExactAt_eq (by decide) (by decide)]
    rfl
  refine openStream_of_index rfl hprobe ?_
  unfold Probe.index Index.build Farbfeld.Header.ofStream
  rw [(hmemory.turned 12).readExactAt_eq (by decide) (by decide)]
  rfl

theorem Viewer.full_size_modes_agree_of_ghost :
    let r : Region := ⟨2, 1, .rgba8, ⟨0, 0, 2, 1⟩, 1, .farbfeld⟩
    ∃ b b', ghost.image.Gives ⟨0, 0, 9, 9⟩ ⟨1, none, false, false, false⟩ b r ∧
      ghost.image.Gives ⟨0, 0, 9, 9⟩ ⟨1, none, false, true, false⟩ b' r ∧
      b.pixelBytes 0 0 = #[255, 0, 0, 0] ∧ b'.pixelBytes 0 0 = #[0, 0, 0, 0] ∧
      b.pixelBytes 1 0 = #[255, 0, 0, 128] ∧ b'.pixelBytes 1 0 = #[255, 0, 0, 128] := by
  intro r
  have hc : ghost.image.bounds.intersect? ⟨0, 0, 9, 9⟩ = some ⟨0, 0, 2, 1⟩ := by decide
  have hreads (j : Nat) (hj : j < 1) : ghost.image.Reads ⟨0, 0, 2, 1⟩ j :=
    (opened_of_openStream openStream_ghost).reads (f := ghost.image.feed) (a := .heap)
      (fun _ => ⟨(Stream.inMemory_ofBytes _).yields (Nat.le_refl _), by decide⟩) ⟨16, rfl⟩
      (Image.clamped_of_intersect? hc) hj
  have hgives (q : Bool) : ∃ b, ghost.image.Gives ⟨0, 0, 9, 9⟩ ⟨1, none, false, q, false⟩ b r := by
    have hr : ghost.image.regionOf ⟨0, 0, 2, 1⟩ ⟨1, none, false, q, false⟩ = r := by decide +revert
    have hallot : Allocator.heap.allot r.byteLength = .storage (.replicate 8 0) := rfl
    rw [← hr] at hallot ⊢
    exact Image.exists_gives hc Nat.one_pos (fun _ hm => by cases hm) hallot
      fun j _ hj => hreads j hj
  obtain ⟨b, h⟩ := hgives false
  obtain ⟨b', h'⟩ := hgives true
  obtain ⟨_, P, hholds, _, hshown⟩ := full_size_modes_agree
    (o := ⟨1, none, false, false, false⟩) openStream_ghost rfl
  have hP : Index.Holds (.farbfeld ⟨2, 1⟩) (Stream.ofBytes ghostBytes).content P :=
    hholds fun he => by cases he
  have hhidden : P 0 0 = ⟨255, 0, 0, 0⟩ := (hP 0 (by decide) 0 (by decide)).trans (by decide)
  have hseen : P 1 0 = ⟨255, 0, 0, 128⟩ := (hP 1 (by decide) 0 (by decide)).trans (by decide)
  have hanswers : ghost.image.feed.stream.answers = (Stream.ofBytes ghostBytes).answers :=
    Stream.answers_turned _ 16
  obtain ⟨_, _, hpixels⟩ := hshown ghost.image.feed ghost.image.feed .heap .heap hanswers hanswers
    ⟨0, 0, 9, 9⟩ b b' r r h h'
  obtain ⟨hfast, hfine⟩ := hpixels 0 (by decide) 0 (by decide)
  obtain ⟨hfast', hfine'⟩ := hpixels 1 (by decide) 0 (by decide)
  simp only [show r.left = 0 from rfl, show r.rect.top.toNat = 0 from rfl, Nat.zero_add, hhidden,
    hseen] at hfast hfine hfast' hfine'
  exact ⟨b, b', h, h', hfast, hfine, hfast', hfine'⟩

end ImageRegion
