import ImageRegion.Proofs.Image.Delivery
import ImageRegion.Proofs.Sampling.Grid

namespace ImageRegion

def Rect.centrePixel (c : Rect) (sample : Nat) (P : Nat → Nat → Pixel) (x y : Nat) : Pixel :=
  P (min (c.left.toNat + x * sample + sample / 2) (c.right.toNat - 1))
    (min (c.top.toNat + y * sample + sample / 2) (c.bottom.toNat - 1))

namespace Image

variable {im : Image} {c : Rect} {o : Options} {P : Nat → Nat → Pixel}

theorem sampled_centres (hP : im.index.Holds im.feed.stream.content P) (hc : im.Clamped c)
    (hs : 0 < o.sampleSize) (hq : o.quality = false) {y : Nat}
    (hreads : im.Reads c
      (min (c.top.toNat + y * o.sampleSize + o.sampleSize / 2) (c.bottom.toNat - 1))) :
    (o.painting (im.regionOf c o)).sampled (im.rows (im.regionOf c o) o) y =
      .ok (Array.ofFn fun x : Fin (im.regionOf c o).width =>
        c.centrePixel o.sampleSize P x y) := by
  have hin : min (c.top.toNat + y * o.sampleSize + o.sampleSize / 2) (c.bottom.toNat - 1) <
      im.height := by
    have ht := hc.top
    have hh := hc.height
    have hb := hc.bottom
    omega
  have hrow := hreads.rowOf hP hc hin
  rw [← centreRow_eq hc hs] at hrow
  have hpicked : (im.rows (im.regionOf c o) o) ((im.regionOf c o).centreRow y) =
      .ok (Array.ofFn fun i : Fin c.width =>
        P (c.left.toNat + i) ((im.regionOf c o).centreRow y)) := hrow
  unfold Painting.sampled Painting.picked
  simp only [Options.painting, hq, Bool.false_eq_true, if_false, hpicked]
  congr 2
  funext x
  have hcolumn := centreColumn_eq hc hs (o := o) x
  have hlt : (im.regionOf c o).centreColumn x < c.width := by
    have hl := hc.left
    have hw := hc.width
    simp only [Rect.width]
    omega
  rw [Array.getD_eq_getD_getElem?, Array.getElem?_ofFn, dif_pos hlt, Option.getD_some]
  simp only [hcolumn, centreRow_eq hc hs, Rect.centrePixel]

theorem decode_shows_centres {rect : Rect} {stop : Stop} {r : Region}
    (hP : im.index.Holds im.feed.stream.content P)
    (hc : im.bounds.intersect? rect = some c) (hs : 0 < o.sampleSize) (hq : o.quality = false)
    (hr : im.regionOf c o = r) (hl : Limits.Admits im.limits.regionBytes r.byteLength)
    (hstop : ∀ k ≤ r.height, stop k = none)
    (hreads : ∀ y < r.height, im.Reads c
      (min (c.top.toNat + y * o.sampleSize + o.sampleSize / 2) (c.bottom.toNat - 1))) :
    r = { rect := c, sampleSize := o.sampleSize, encoding := im.encoding,
          format := o.format.getD im.index.nativeFormat,
          width := Word.ceilDiv (c.right - c.left).toNat o.sampleSize,
          height := Word.ceilDiv (c.bottom - c.top).toNat o.sampleSize } ∧
    (∀ storage, im.allocator.allot r.byteLength = .storage storage →
      r.byteLength ≤ storage.size →
      ∃ b, (im.decode rect o stop).1.result = .ok (.decoded (b, r)) ∧
        b.capacity = storage.size ∧ b.Depicts r o (c.centrePixel o.sampleSize P)) ∧
    ∀ target : Bitmap, r.byteLength ≤ target.capacity →
      (im.decodeInto rect o target stop).1.result = .ok (.decoded r) ∧
        (im.decodeInto rect o target stop).2.1.capacity = target.capacity ∧
        (im.decodeInto rect o target stop).2.1.Depicts r o (c.centrePixel o.sampleSize P) := by
  have hplan : im.plan rect o stop = .ok r :=
    hr ▸ plan_eq_ok hs (hstop 0 (Nat.zero_le _)) hc (hr ▸ hl)
  have hshown : ∀ y < r.height, (o.painting r).sampled (im.rows r o) y =
      .ok (Array.ofFn fun x : Fin r.width => c.centrePixel o.sampleSize P x y) := by
    subst hr
    exact fun y hy => sampled_centres hP (clamped_of_intersect? hc) hs hq (hreads y hy)
  exact ⟨hr ▸ rfl, fun storage ha hsize => decode_depicts hplan hstop hshown ha hsize,
    fun target hsize => decodeInto_depicts hplan hstop hshown hsize⟩

theorem decode_shows_centres_of_stamp : ∃ b,
    (stamp.decode ⟨-1, 0, 9, 2⟩ ⟨2, some .rgb565, true, false, true⟩ .never).1.result =
      .ok (.decoded (b, ⟨2, 1, .rgb565, ⟨0, 0, 3, 2⟩, 2, .png⟩)) ∧ b.capacity = 4 ∧
      b.Depicts ⟨2, 1, .rgb565, ⟨0, 0, 3, 2⟩, 2, .png⟩ ⟨2, some .rgb565, true, false, true⟩
        (Rect.centrePixel ⟨0, 0, 3, 2⟩ 2 stampPixel) := by
  have hc : stamp.bounds.intersect? ⟨-1, 0, 9, 2⟩ = some ⟨0, 0, 3, 2⟩ := by decide
  have hreads : ∀ y < 1, stamp.Reads ⟨0, 0, 3, 2⟩ (min (0 + y * 2 + 2 / 2) (2 - 1)) :=
    fun y _ => reads_stamp hc (by omega)
  have h := decode_shows_centres (o := ⟨2, some .rgb565, true, false, true⟩) holds_stamp hc
    (by decide) rfl rfl (fun _ hm => by cases hm) (fun _ _ => rfl) hreads
  exact h.2.1 (.replicate 4 0) rfl (by decide)

end Image

end ImageRegion
