import Mathlib.Data.Int.Interval
import Mathlib.Data.Set.Card
import ImageRegion.Proofs.Geometry.Words
import ImageRegion.Proofs.History

namespace ImageRegion

namespace Rect

variable {a b c r : Rect} {r? s? : Option Rect}

def points (r : Rect) : Set (Int × Int) := {p | r.Contains p.1 p.2}

theorem mem_points {x y : Int} : (x, y) ∈ r.points ↔ r.Contains x y := Iff.rfl

theorem points_nonempty_iff : r.points.Nonempty ↔ r.isEmpty = false := by
  rw [isEmpty_eq_false]
  constructor
  · rintro ⟨⟨x, y⟩, hleft, hright, htop, hbottom⟩
    exact ⟨Int.lt_of_le_of_lt hleft hright, Int.lt_of_le_of_lt htop hbottom⟩
  · rintro ⟨hwidth, hheight⟩
    exact ⟨(r.left, r.top), Int.le_refl _, hwidth, Int.le_refl _, hheight⟩

theorem points_overlap (a b : Rect) : (a.overlap b).points = a.points ∩ b.points := by
  ext ⟨x, y⟩
  rw [Set.mem_inter_iff, mem_points, mem_points, mem_points, contains_overlap]

theorem edges_le_of_subset (ha : a.points.Nonempty) (h : a.points ⊆ b.points) :
    b.left ≤ a.left ∧ b.top ≤ a.top ∧ a.right ≤ b.right ∧ a.bottom ≤ b.bottom := by
  obtain ⟨hwidth, hheight⟩ := (isEmpty_eq_false a).mp (points_nonempty_iff.mp ha)
  -- The first and the last point are enough.
  have hfirst : a.Contains a.left a.top := ⟨Int.le_refl _, hwidth, Int.le_refl _, hheight⟩
  have hlast : a.Contains (a.right - 1) (a.bottom - 1) := by
    simp only [Contains]
    omega
  obtain ⟨hleft, _, htop, _⟩ := mem_points.mp (h (mem_points.mpr hfirst))
  obtain ⟨_, hright, _, hbottom⟩ := mem_points.mp (h (mem_points.mpr hlast))
  omega

theorem eq_of_points_eq (ha : a.points.Nonempty) (h : a.points = b.points) : a = b := by
  obtain ⟨hleft, htop, hright, hbottom⟩ := edges_le_of_subset ha h.subset
  obtain ⟨hleft', htop', hright', hbottom'⟩ := edges_le_of_subset (h ▸ ha) h.symm.subset
  cases a
  cases b
  simp only [mk.injEq]
  exact ⟨Int.le_antisymm hleft' hleft, Int.le_antisymm htop' htop,
    Int.le_antisymm hright hright', Int.le_antisymm hbottom hbottom'⟩

theorem ncard_between (first last : Int) :
    {x | first ≤ x ∧ x < last}.ncard = (last - first).toNat := by
  have hfinite : {x | first ≤ x ∧ x < last} = (Finset.Ico first last : Set Int) := by
    ext x
    rw [Finset.mem_coe, Finset.mem_Ico]
    rfl
  rw [hfinite, Set.ncard_coe_finset, Int.card_Ico]

def points? : Option Rect → Set (Int × Int)
  | none => ∅
  | some r => r.points

theorem points?_intersect? (a b : Rect) : points? (a.intersect? b) = a.points ∩ b.points := by
  rw [← points_overlap]
  unfold intersect?
  split
  next h =>
    symm
    rw [points?, ← Set.not_nonempty_iff_eq_empty, points_nonempty_iff, h]
    decide
  · rfl

theorem nonempty_of_intersect? (h : a.intersect? b = some r) : r.points.Nonempty := by
  unfold intersect? at h
  split at h
  · cases h
  next hb =>
    cases h
    exact points_nonempty_iff.mpr (Bool.eq_false_iff.mpr hb)

theorem eq_of_points?_eq (hr : ∀ r, r? = some r → r.points.Nonempty)
    (hs : ∀ s, s? = some s → s.points.Nonempty) (h : points? r? = points? s?) : r? = s? := by
  cases r? with
  | none =>
    cases s? with
    | none => rfl
    | some s => exact absurd h.symm (hs s rfl).ne_empty
  | some r =>
    cases s? with
    | none => exact absurd h (hr r rfl).ne_empty
    | some s => rw [eq_of_points_eq (hr r rfl) h]

theorem intersect?_eq_none_iff : a.intersect? b = none ↔ a.points ∩ b.points = ∅ := by
  rw [← points?_intersect?]
  cases h : a.intersect? b with
  | none => exact iff_of_true rfl rfl
  | some r => exact iff_of_false (by simp) (nonempty_of_intersect? h).ne_empty

theorem intersect?_comm (a b : Rect) : a.intersect? b = b.intersect? a := by
  apply eq_of_points?_eq (fun _ => nonempty_of_intersect?) (fun _ => nonempty_of_intersect?)
  rw [points?_intersect?, points?_intersect?, Set.inter_comm]

theorem points?_bind_intersect? (r? : Option Rect) (c : Rect) :
    points? (r?.bind (·.intersect? c)) = points? r? ∩ c.points := by
  cases r? with
  | none => exact (Set.empty_inter _).symm
  | some r => exact points?_intersect? r c

theorem nonempty_of_bind_intersect? (h : r?.bind (·.intersect? c) = some r) :
    r.points.Nonempty := by
  obtain ⟨_, _, h⟩ := Option.bind_eq_some_iff.mp h
  exact nonempty_of_intersect? h

theorem intersect?_assoc (a b c : Rect) :
    (a.intersect? b).bind (·.intersect? c) = (b.intersect? c).bind (a.intersect? ·) := by
  have hflip : (a.intersect? ·) = (·.intersect? a) := funext fun r => intersect?_comm a r
  rw [hflip]
  apply eq_of_points?_eq (fun _ => nonempty_of_bind_intersect?)
    (fun _ => nonempty_of_bind_intersect?)
  rw [points?_bind_intersect?, points?_bind_intersect?, points?_intersect?, points?_intersect?,
    Set.inter_assoc, Set.inter_comm a.points]

theorem intersect?_eq_some_self_iff :
    a.intersect? b = some a ↔ a.points.Nonempty ∧ a.points ⊆ b.points := by
  constructor
  · intro h
    refine ⟨nonempty_of_intersect? h, Set.inter_eq_left.mp ?_⟩
    rw [← points?_intersect?, h, points?]
  · rintro ⟨ha, hsub⟩
    apply eq_of_points?_eq (fun _ => nonempty_of_intersect?)
    · rintro _ ⟨⟩
      exact ha
    · rw [points?_intersect?, Set.inter_eq_left.mpr hsub, points?]

end Rect

def Event.asking (rect : Rect) : Event → Event
  | .decoding encoding _ clamped sample width height format =>
    .decoding encoding rect clamped sample width height format
  | event => event

def Decoding.asking {α : Type} (rect : Rect) (d : Decoding α) : Decoding α :=
  { d with events := d.events.map (Event.asking rect) }

namespace Image

variable {im : Image} {rect rect' : Rect}

def points (im : Image) : Set (Int × Int) :=
  {p | 0 ≤ p.1 ∧ p.1 < im.width ∧ 0 ≤ p.2 ∧ p.2 < im.height}

theorem mem_points {x y : Int} :
    (x, y) ∈ im.points ↔ 0 ≤ x ∧ x < im.width ∧ 0 ≤ y ∧ y < im.height := Iff.rfl

theorem points_bounds (h : rect.HasCoords) :
    im.bounds.points ∩ rect.points = im.points ∩ rect.points := by
  obtain ⟨_, _, hright, hbottom⟩ := h
  ext ⟨x, y⟩
  simp only [Set.mem_inter_iff, Rect.mem_points, mem_points, Rect.Contains, bounds, Rect.ofSize]
  simp only [Rect.IsCoord] at hright hbottom
  omega

/-- The requests show the same points of the image, and some. -/
structure Alike (im : Image) (rect rect' : Rect) : Prop where
  coords : rect.HasCoords
  coords' : rect'.HasCoords
  same : im.points ∩ rect.points = im.points ∩ rect'.points
  nonempty : (im.points ∩ rect.points).Nonempty

theorem Alike.intersect?_eq (h : im.Alike rect rect') :
    im.bounds.intersect? rect' = im.bounds.intersect? rect := by
  apply Rect.eq_of_points?_eq (fun _ => Rect.nonempty_of_intersect?)
    (fun _ => Rect.nonempty_of_intersect?)
  rw [Rect.points?_intersect?, Rect.points?_intersect?, points_bounds h.coords,
    points_bounds h.coords', h.same]

theorem Alike.plan_eq (h : im.Alike rect rect') (o : Options) (stop : Stop) :
    im.plan rect' o stop = im.plan rect o stop := by
  have hsome : im.bounds.intersect? rect ≠ none := by
    rw [Ne, Rect.intersect?_eq_none_iff, points_bounds h.coords]
    exact h.nonempty.ne_empty
  obtain ⟨c, hc⟩ := Option.ne_none_iff_exists'.mp hsome
  unfold plan
  rw [h.intersect?_eq, hc]

theorem asking_events (rect : Rect) (e : Encoding) (ending : Ending) :
    (ending.events e).map (Event.asking rect) = ending.events e := by
  cases ending <;> rfl

theorem Alike.decode_eq (h : im.Alike rect rect') (o : Options) (stop : Stop) :
    im.decode rect' o stop =
      ((im.decode rect o stop).1.asking rect', (im.decode rect o stop).2) := by
  unfold decode
  rw [h.plan_eq]
  cases im.plan rect o stop with
  | error halt => rfl
  | ok r =>
    dsimp only
    cases im.allocator.allot r.byteLength with
    | refused | abandoned => rfl
    | storage storage =>
      simp only [Decoding.asking, List.map_cons, asking_events]
      rfl

theorem Alike.decodeInto_eq (h : im.Alike rect rect') (o : Options) (target : Bitmap)
    (stop : Stop) : im.decodeInto rect' o target stop =
      ((im.decodeInto rect o target stop).1.asking rect',
        (im.decodeInto rect o target stop).2) := by
  unfold decodeInto
  rw [h.plan_eq]
  cases im.plan rect o stop with
  | error halt => rfl
  | ok r =>
    dsimp only
    cases target.reconfigure r.width r.height r.format o.premultiplied with
    | error => rfl
    | ok bitmap =>
      simp only [Decoding.asking, List.map_cons, asking_events]
      rfl

end Image

namespace Holding

variable {held : Holding} {v : Viewer} {rect rect' : Rect}

theorem decode_alike (hv : held.viewer? = some v) (h : v.image.Alike rect rect') (o : Options)
    (stop : Stop) : held.decode rect' o stop =
      ((held.decode rect o stop).1.asking rect', (held.decode rect o stop).2) := by
  cases held with
  | owned w =>
    cases hv
    simp only [decode, Viewer.decode, h.decode_eq]
  | shelved c k =>
    have hv : c.get? k = some v := hv
    simp only [decode, Catalogue.decode, hv, Viewer.decode, h.decode_eq]
    rfl

theorem decodeInto_alike (hv : held.viewer? = some v) (h : v.image.Alike rect rect') (o : Options)
    (target : Bitmap) (stop : Stop) : held.decodeInto rect' o target stop =
      ((held.decodeInto rect o target stop).1.asking rect',
        (held.decodeInto rect o target stop).2) := by
  cases held with
  | owned w =>
    cases hv
    simp only [decodeInto, Viewer.decodeInto, h.decodeInto_eq]
  | shelved c k =>
    have hv : c.get? k = some v := hv
    simp only [decodeInto, Catalogue.decodeInto, hv, Viewer.decodeInto, h.decodeInto_eq]
    rfl

end Holding

theorem Viewer.decodeRegion_alike {v : Viewer} {rect rect' : Rect} (h : v.image.Alike rect rect')
    (target : Option Bitmap) (format : Option PixelFormat) (sampleSize : Nat) :
    v.decodeRegion target rect' format sampleSize =
      v.decodeRegion target rect format sampleSize := by
  cases target with
  | none =>
    simp only [decodeRegion, decode, h.decode_eq]
    rfl
  | some target =>
    simp only [decodeRegion, decodeInto, h.decodeInto_eq]
    rfl

theorem Rect.intersection_is_of_points :
    (∀ a b : Rect, points? (a.intersect? b) = a.points ∩ b.points ∧
      (a.intersect? b = none ↔ a.points ∩ b.points = ∅) ∧
      a.intersect? b = b.intersect? a ∧
      (∀ c, (a.intersect? b).bind (·.intersect? c) = (b.intersect? c).bind (a.intersect? ·)) ∧
      (a.intersect? b = some a ↔ a.points.Nonempty ∧ a.points ⊆ b.points)) ∧
    (∀ r : Rect, r.HasCoords → r.size? = some (r.width, r.height) ∧
      {x | r.left ≤ x ∧ x < r.right}.ncard = r.width ∧
      {y | r.top ≤ y ∧ y < r.bottom}.ncard = r.height) ∧
    ∀ (held : Holding) (v : Viewer) (rect rect' : Rect), held.viewer? = some v →
      v.image.Alike rect rect' →
      (∀ o stop, held.decode rect' o stop =
        ((held.decode rect o stop).1.asking rect', (held.decode rect o stop).2)) ∧
      (∀ o target stop, held.decodeInto rect' o target stop =
        ((held.decodeInto rect o target stop).1.asking rect',
          (held.decodeInto rect o target stop).2)) ∧
      ∀ target format sampleSize, v.decodeRegion target rect' format sampleSize =
        v.decodeRegion target rect format sampleSize := by
  refine ⟨fun a b => ⟨points?_intersect? a b, intersect?_eq_none_iff, intersect?_comm a b,
    intersect?_assoc a b, intersect?_eq_some_self_iff⟩, ?_, ?_⟩
  · exact fun r hr => ⟨hr.size?_eq, ncard_between _ _, ncard_between _ _⟩
  · exact fun held v rect rect' hv h => ⟨Holding.decode_alike hv h, Holding.decodeInto_alike hv h,
      Viewer.decodeRegion_alike h⟩

def Rect.everywhere : Rect := ⟨minCoord, minCoord, maxCoord, maxCoord⟩

theorem Rect.hasCoords_everywhere : everywhere.HasCoords :=
  ⟨⟨by decide, by decide⟩, ⟨by decide, by decide⟩, ⟨by decide, by decide⟩, ⟨by decide, by decide⟩⟩

theorem Image.alike_everywhere : stamp.Alike ⟨0, 0, 3, 2⟩ .everywhere := by
  have hwidth : stamp.width = 3 := rfl
  have hheight : stamp.height = 2 := rfl
  refine ⟨?_, Rect.hasCoords_everywhere, ?_, ⟨(0, 0), ?_⟩⟩
  · exact ⟨⟨by decide, by decide⟩, ⟨by decide, by decide⟩, ⟨by decide, by decide⟩,
      ⟨by decide, by decide⟩⟩
  · ext ⟨x, y⟩
    simp only [Set.mem_inter_iff, mem_points, Rect.mem_points, Rect.Contains, Rect.everywhere,
      Rect.minCoord, Rect.maxCoord, hwidth, hheight]
    omega
  · simp only [Set.mem_inter_iff, mem_points, Rect.mem_points, Rect.Contains, hwidth, hheight]
    omega

theorem Rect.intersection_is_of_points_of_stamp :
    everywhere.size? = some (0xFFFFFFFF, 0xFFFFFFFF) ∧
      everywhere.intersect? ⟨4, 2, 4, 9⟩ = none ∧
      (Holding.decode (.owned ⟨.stamp, 3, 2⟩) .everywhere .standard .never).1.result =
        (Holding.decode (.owned ⟨.stamp, 3, 2⟩) ⟨0, 0, 3, 2⟩ .standard .never).1.result := by
  obtain ⟨hsets, hsizes, hdecodes⟩ := intersection_is_of_points
  refine ⟨(hsizes _ hasCoords_everywhere).1, ?_, ?_⟩
  · rw [(hsets everywhere ⟨4, 2, 4, 9⟩).2.1, ← (hsets _ _).1]
    rfl
  · rw [(hdecodes _ ⟨.stamp, 3, 2⟩ _ _ rfl Image.alike_everywhere).1]
    rfl

end ImageRegion
