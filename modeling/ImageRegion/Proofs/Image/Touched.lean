import ImageRegion.Proofs.Image.Completion
import ImageRegion.Proofs.Image.Layout
import ImageRegion.Proofs.Sampling.Parts

namespace ImageRegion

def RowLayout.touched (l : RowLayout) (c : Rect) (y : Nat) : Span :=
  ⟨l.start c.left.toNat y, l.start c.right.toNat y⟩

/-- Row `k` is looked at to sample the rectangle: each row to average blocks, and the rows at the
centres of the blocks to pick pixels. -/
def Rect.Touches (c : Rect) (o : Options) (k : Nat) : Prop :=
  if o.quality then c.top.toNat ≤ k ∧ k < c.bottom.toNat
  else ∃ y < Word.ceilDiv c.height o.sampleSize,
    k = min (c.top.toNat + y * o.sampleSize + o.sampleSize / 2) (c.bottom.toNat - 1)

/-- Neither stream can be read over the span, or both can and have the same bytes in it. Reasons why
it cannot be read are told apart by what `φ` makes of them. -/
structure Stream.AgreesOn (φ : Fault → Fault) (s t : Stream) (span : Span) : Prop where
  yields : s.Yields span ↔ t.Yields span
  byteAt : s.Yields span → ∀ i, span.first ≤ i → i < span.stop →
    s.content.byteAt i = t.content.byteAt i
  fault : ∀ e e', s.answers span.first span.length = .error e →
    t.answers span.first span.length = .error e' → φ e = φ e'

theorem Stream.answers_ok_iff_span {s : Stream} {span : Span} (hspan : span.first < span.stop)
    (hword : span.first < 0x10000000000000000) :
    (∃ bytes, s.answers span.first span.length = .ok bytes) ↔ s.Yields span := by
  have hstop : span.first + span.length = span.stop := Nat.add_sub_cancel' (Nat.le_of_lt hspan)
  have hlength : 0 < span.length := Nat.sub_pos_of_lt hspan
  rw [answers_ok_iff_yields hlength hword, hstop]

theorem Stream.AgreesOn.answers {φ : Fault → Fault} {s t : Stream} {span : Span}
    (h : s.AgreesOn φ t span) (hspan : span.first < span.stop)
    (hword : span.first < 0x10000000000000000) :
    (s.answers span.first span.length).mapError φ =
      (t.answers span.first span.length).mapError φ := by
  have hs := answers_ok_iff_span (s := s) hspan hword
  have ht := answers_ok_iff_span (s := t) hspan hword
  by_cases hyields : s.Yields span
  · obtain ⟨bytes, hb⟩ := hs.mpr hyields
    obtain ⟨bytes', hb'⟩ := ht.mpr (h.yields.mp hyields)
    have hsame : s.content.slice span.first span.length =
        t.content.slice span.first span.length := by
      unfold Content.slice
      congr 1
      funext i
      have hi := i.isLt
      unfold Span.length at hi
      exact h.byteAt hyields _ (Nat.le_add_right _ _) (by omega)
    rw [hb, hb', answers_eq_ok hb, answers_eq_ok hb', hsame]
  · cases hb : s.answers span.first span.length with
    | ok bytes => exact absurd (hs.mp ⟨bytes, hb⟩) hyields
    | error e =>
      cases hb' : t.answers span.first span.length with
      | ok bytes => exact absurd (h.yields.mpr (ht.mp ⟨bytes, hb'⟩)) hyields
      | error e' => exact congrArg Except.error (h.fault e e' hb hb')

/-- All of the span can be read from the stream, with the bytes that another one gives in it if it
can be read there. -/
structure Stream.Mends (t s : Stream) (span : Span) : Prop where
  yields : t.Yields span
  byteAt : s.Yields span → ∀ i, span.first ≤ i → i < span.stop →
    s.content.byteAt i = t.content.byteAt i

theorem Stream.exists_mends (s : Stream) (size : Nat) :
    ∃ t : Stream, ∀ span : Span, span.stop ≤ size → t.Mends s span := by
  refine ⟨.ofContent { s.content with size, fault := fun _ => none }, fun span hstop => ?_⟩
  have hclear := Content.isClear_of_unfaulted
    (c := { s.content with size, fault := fun _ => none }) (fun _ => rfl) hstop
  exact ⟨⟨rfl, hclear, trivial⟩, fun _ _ _ _ => rfl⟩

theorem Stream.Mends.agreesOn {s t : Stream} {span : Span} (h : t.Mends s span)
    (hyields : s.Yields span) (hspan : span.first < span.stop)
    (hword : span.first < 0x10000000000000000) (φ : Fault → Fault) : s.AgreesOn φ t span := by
  refine ⟨iff_of_true hyields h.yields, h.byteAt, fun e e' herror => ?_⟩
  obtain ⟨bytes, hok⟩ := (answers_ok_iff_span hspan hword).mpr hyields
  rw [hok] at herror
  cases herror

namespace Painting

variable {p : Painting} {rows : SourceRows}

theorem error_of_tallied {count y : Nat} {tallies : Array Tally} {e : RowFailure}
    (h : p.tallied rows count y tallies = .error e) :
    ∃ j, y ≤ j ∧ j < y + count ∧ rows j = .error e := by
  induction count generalizing y tallies with
  | zero => cases h
  | succ count ih =>
    simp only [tallied] at h
    cases hrow : rows y with
    | error failure =>
      rw [hrow] at h
      cases h
      exact ⟨y, Nat.le_refl y, by omega, hrow⟩
    | ok row =>
      rw [hrow] at h
      obtain ⟨j, hj, hlt, he⟩ := ih h
      exact ⟨j, by omega, by omega, he⟩

end Painting

namespace Image

variable {im : Image} {c : Rect} {o : Options} {l : RowLayout} {k : Nat}

theorem touches_iff (hc : im.Clamped c) (hs : 0 < o.sampleSize) :
    c.Touches o k ↔ ∃ y < (im.regionOf c o).height, im.Needs c o y k := by
  have hheight : (im.regionOf c o).height = Word.ceilDiv c.height o.sampleSize := rfl
  unfold Rect.Touches Needs
  by_cases hq : o.quality = true
  · simp only [if_pos hq, rows_regionOf hc, hheight]
    have ht := hc.top
    have hh := hc.height
    constructor
    · rintro ⟨hfirst, hlast⟩
      have hdiv := Nat.div_add_mod (k - c.top.toNat) o.sampleSize
      have hmod := Nat.mod_lt (k - c.top.toNat) hs
      rw [Nat.mul_comm] at hdiv
      refine ⟨(k - c.top.toNat) / o.sampleSize, ?_, ?_, ?_⟩
      · apply (Word.lt_ceilDiv_iff hs).mpr
        simp only [Rect.height]
        omega
      · omega
      · omega
    · rintro ⟨y, hy, hfirst, hlast⟩
      omega
  · simp only [if_neg hq, centreRow_eq hc hs, hheight]

theorem lt_bottom_of_needs (hc : im.Clamped c) (hs : 0 < o.sampleSize) {y : Nat}
    (hk : im.Needs c o y k) : k < c.bottom.toNat := by
  have ht := hc.top
  have hh := hc.height
  unfold Needs at hk
  split at hk
  · rw [rows_regionOf hc] at hk
    simp only at hk
    omega
  · rw [centreRow_eq hc hs] at hk
    omega

structure LaidOut (im : Image) (l : RowLayout) : Prop where
  layout : im.index.layout? = some l
  pixelBytes : 0 < l.pixelBytes
  start_lt : ∀ x ≤ im.width, ∀ y < im.height, l.start x y < 0x10000000000000000

section LaidOut

variable (h : im.LaidOut l) (hc : im.Clamped c) (hk : k < c.bottom.toNat)

include h hc hk

theorem LaidOut.touched_eq : (l.touched c k).first < (l.touched c k).stop ∧
    (l.touched c k).length = c.width * l.pixelBytes ∧
    (⟨l.start c.left.toNat k, l.start (c.left.toNat + c.width) k⟩ : Span) = l.touched c k ∧
    (l.touched c k).stop < 0x10000000000000000 := by
  have hl := hc.left
  have hw := hc.width
  have hr := hc.right
  have hb := hc.bottom
  have hright : c.left.toNat + c.width = c.right.toNat := by
    simp only [Rect.width]
    omega
  have hcount : 0 < c.width := by omega
  have hadd := l.start_add c.left.toNat k c.width
  have hpos := Nat.mul_pos hcount h.pixelBytes
  have hword := h.start_lt c.right.toNat (by omega) k (by omega)
  rw [hright] at hadd
  simp only [RowLayout.touched, Span.length]
  refine ⟨?_, ?_, ?_, hword⟩
  · omega
  · omega
  · rw [hright]

theorem LaidOut.rowOf_agrees {φ : Fault → Fault} {s t : Stream}
    (ha : s.AgreesOn φ t (l.touched c k)) :
    (im.index.rowOf s.answers c.left.toNat c.width k).mapError (RowFailure.recast φ) =
      (im.index.rowOf t.answers c.left.toNat c.width k).mapError (RowFailure.recast φ) := by
  obtain ⟨hspan, hlength, _, hword⟩ := h.touched_eq hc hk
  have hanswers := ha.answers hspan (Nat.lt_trans hspan hword)
  rw [Index.rowOf_recast, Index.rowOf_recast]
  apply Index.rowOf_congr
  intro l' hl'
  obtain rfl := Option.some.inj (h.layout.symm.trans hl')
  rw [hlength] at hanswers
  exact hanswers

theorem LaidOut.rowOf_ok_iff {s : Stream} :
    (∃ row, im.index.rowOf s.answers c.left.toNat c.width k = .ok row) ↔
      s.Yields (l.touched c k) := by
  obtain ⟨_, _, hspan, hword⟩ := h.touched_eq hc hk
  have hw := hc.width
  have hcount : 0 < c.width := by
    simp only [Rect.width]
    omega
  rw [← hspan] at hword ⊢
  exact Index.rowOf_ok_iff h.layout h.pixelBytes hcount hword

theorem LaidOut.rowOf_mended {s t : Stream} {row : Array Pixel}
    (hm : t.Mends s (l.touched c k))
    (hrow : im.index.rowOf s.answers c.left.toNat c.width k = .ok row) :
    im.index.rowOf t.answers c.left.toNat c.width k = .ok row := by
  obtain ⟨hspan, _, _, hword⟩ := h.touched_eq hc hk
  have hyields := (h.rowOf_ok_iff hc hk).mp ⟨row, hrow⟩
  have hsame := h.rowOf_agrees hc hk (hm.agreesOn hyields hspan (Nat.lt_trans hspan hword) id)
  rw [hrow] at hsame
  cases hrow' : im.index.rowOf t.answers c.left.toNat c.width k with
  | error e =>
    rw [hrow'] at hsame
    cases hsame
  | ok row' =>
    rw [hrow'] at hsame
    cases hsame
    rfl

theorem LaidOut.reads_iff :
    im.Reads c k ↔ im.feed.stream.Yields (l.touched c k) := by
  unfold Reads
  rw [Index.readRow_fst]
  exact h.rowOf_ok_iff hc hk

end LaidOut

theorem needs_iff_of_quality (hq : o.quality = true) {y : Nat} : im.Needs c o y k ↔
    ((im.regionOf c o).rows y).first ≤ k ∧
      k < ((im.regionOf c o).rows y).first + ((im.regionOf c o).rows y).length := by
  unfold Needs
  rw [if_pos hq, Span.length]
  omega

theorem needs_iff_of_speed (hq : ¬o.quality = true) {y : Nat} :
    im.Needs c o y k ↔ k = (im.regionOf c o).centreRow y := by
  unfold Needs
  rw [if_neg hq]

theorem sampled_of_needs {rows rows' : SourceRows} {y : Nat}
    (h : ∀ k, im.Needs c o y k → rows k = rows' k) :
    (o.painting (im.regionOf c o)).sampled rows y =
      (o.painting (im.regionOf c o)).sampled rows' y := by
  unfold Painting.sampled
  by_cases hq : o.quality = true
  · have hquality : (o.painting (im.regionOf c o)).quality = true := hq
    rw [if_pos hquality, if_pos hquality]
    exact Painting.averaged_congr fun j hj hlt => h j ((needs_iff_of_quality hq).mpr ⟨hj, hlt⟩)
  · have hquality : ¬(o.painting (im.regionOf c o)).quality = true := hq
    rw [if_neg hquality, if_neg hquality]
    exact Painting.picked_congr (h _ ((needs_iff_of_speed hq).mpr rfl))

theorem sampled_ok_iff {y : Nat} : (∃ row, (o.painting (im.regionOf c o)).sampled
    (im.rows (im.regionOf c o) o) y = .ok row) ↔ im.Samples c o y := by
  constructor
  · rintro ⟨row, hrow⟩
    exact samples_of_sampled hrow
  · intro h
    -- The rows that are not needed may as well be empty.
    let mended : SourceRows := fun k => .ok ((im.rows (im.regionOf c o) o k).toOption.getD #[])
    have hmended (k : Nat) (hk : im.Needs c o y k) :
        im.rows (im.regionOf c o) o k = mended k := by
      obtain ⟨row, hr⟩ := h k hk
      have hrow : im.rows (im.regionOf c o) o k = .ok row :=
        (Index.readRow_fst _ _ _ _ _).symm.trans hr
      simp only [mended, hrow, Except.toOption, Option.getD_some]
    rw [sampled_of_needs hmended]
    exact Painting.sampled_ok ⟨_, rfl⟩ fun j _ _ => ⟨_, rfl⟩

theorem error_of_sampled {rows : SourceRows} {y : Nat} {e : RowFailure}
    (h : (o.painting (im.regionOf c o)).sampled rows y = .error e) :
    ∃ k, im.Needs c o y k ∧ rows k = .error e := by
  unfold Painting.sampled at h
  by_cases hq : o.quality = true
  · have hquality : (o.painting (im.regionOf c o)).quality = true := hq
    rw [if_pos hquality] at h
    unfold Painting.averaged at h
    dsimp only at h
    split at h
    next htallied =>
      cases h
      obtain ⟨j, hj, hlt, he⟩ := Painting.error_of_tallied htallied
      exact ⟨j, (needs_iff_of_quality hq).mpr ⟨hj, hlt⟩, he⟩
    · cases h
  · have hquality : ¬(o.painting (im.regionOf c o)).quality = true := hq
    rw [if_neg hquality] at h
    unfold Painting.picked at h
    split at h
    next hrow =>
      cases h
      exact ⟨_, (needs_iff_of_speed hq).mpr rfl, hrow⟩
    · cases h

end Image

end ImageRegion
