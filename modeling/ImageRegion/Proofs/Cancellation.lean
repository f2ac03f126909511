import ImageRegion.Proofs.Image.Completion
import ImageRegion.Proofs.Reuse

namespace ImageRegion

/-- Only the first `rows` rows of a region have been painted; they are those of the full image. -/
structure Bitmap.CutShort (before full after : Bitmap) (r : Region) (o : Options)
    (rows : Nat) : Prop extends before.Repainted after r o where
  painted : ∀ y < rows, ∃ row, after.row? y = .ok row ∧ full.row? y = .ok row
  kept : ∀ i, rows * r.format.rowBytes r.width ≤ i → after.storage[i]? = before.storage[i]?

theorem Bitmap.row?_overwrite_band {b : Bitmap} {r : Region} {o : Options} {rows : SourceRows}
    (h : (o.painting r).Paintable rows) {n y : Nat} (hn : n ≤ r.height) (hy : y < n) :
    ((b.shaped r o).overwrite ((o.painting r).band rows n)).row? y =
      .ok ((o.painting r).line rows y) := by
  have hstop : y * r.format.rowBytes r.width + r.format.rowBytes r.width ≤
      ((o.painting r).band rows n).size := by
    rw [h.size_band hn, ← Nat.succ_mul]
    exact Nat.mul_le_mul_right _ hy
  refine (if_pos (Nat.lt_of_lt_of_le hy hn)).trans (congrArg Except.ok ?_)
  show Array.extract (_ ++ _) (y * r.format.rowBytes r.width)
    (y * r.format.rowBytes r.width + r.format.rowBytes r.width) = _
  rw [Array.extract_append, Nat.sub_eq_zero_of_le hstop, Array.extract_zero, Array.append_empty]
  exact h.extract_band hn hy

namespace Image

variable {im : Image} {rect : Rect} {o : Options} {stop : Stop} {r : Region} {target : Bitmap}

theorem cutShort_onto {rows : SourceRows} (h : (o.painting r).Paintable rows)
    (hsize : r.byteLength ≤ target.capacity) {n : Nat} (hn : n ≤ r.height)
    (hwritten : (im.paint r o stop).written = (o.painting r).band rows n)
    (hreturn : ∀ breach, (im.paint r o stop).ending ≠ .breached breach) :
    target.CutShort
      ((target.shaped r o).overwrite ((o.painting r).band rows r.height)).touch
      ((im.paint r o stop).onto (target.shaped r o)) r o n := by
  have honto := onto_of_returns hreturn (target.shaped r o)
  constructor
  · exact repainted_onto (Bitmap.reconfigure_of_le o hsize) hreturn
  · intro y hy
    rw [honto, hwritten]
    refine ⟨_, Bitmap.row?_overwrite_band h hn hy, ?_⟩
    exact Bitmap.row?_overwrite_band h (Nat.le_refl _) (by omega)
  · intro i hi
    rw [honto, hwritten]
    apply Bitmap.getElem?_overwrite
    rw [h.size_band hn]
    exact hi

theorem cutShort_of_paintable (h : (o.painting r).Paintable (im.rows r o))
    (hplan : im.plan rect o .never = .ok r) (hsize : r.byteLength ≤ target.capacity)
    {n : Nat} {reason : StopReason} (hf : stop.FailsFirst (n + 1) reason) (hn : n < r.height) :
    target.CutShort (im.decodeInto rect o target .never).2.1
      (im.decodeInto rect o target stop).2.1 r o n := by
  obtain ⟨hended, hwritten, _⟩ := paint_fails h hf hn
  obtain ⟨_, _, honto⟩ :=
    decodeInto_of_le ((plan_congr (hf.1 0 (Nat.succ_pos n))).trans hplan) hsize
  obtain ⟨_, _, hfull⟩ := decodeInto_passes h hplan hsize (Stop.never_passes _)
  rw [honto, hfull]
  apply cutShort_onto h hsize (Nat.le_of_lt hn) hwritten
  intro breach hbreach
  rw [hended] at hbreach
  cases hbreach

/-- If no check up to the last row fails, all rows are painted; otherwise the first that fails ends
the decode between two rows. -/
theorem cancellation_keeps_whole_rows (im : Image) (rect : Rect) (o : Options) (stop : Stop) :
    (∀ b r, (im.decode rect o .never).1.result = .ok (.decoded (b, r)) →
      ((∀ k ≤ r.height, stop k = none) →
        (im.decode rect o stop).1.result = .ok (.decoded (b, r)) ∧
          (im.decode rect o stop).1.checks = r.height + 1) ∧
      ∀ n ≤ r.height, ∀ reason, stop.FailsFirst n reason →
        (im.decode rect o stop).1.result = .ok (.cancelled reason) ∧
          (im.decode rect o stop).1.checks = n + 1) ∧
    ∀ target r, (im.decodeInto rect o target .never).1.result = .ok (.decoded r) →
      ((∀ k ≤ r.height, stop k = none) →
        (im.decodeInto rect o target stop).1.result = .ok (.decoded r) ∧
          (im.decodeInto rect o target stop).1.checks = r.height + 1 ∧
          (im.decodeInto rect o target stop).2.1 = (im.decodeInto rect o target .never).2.1) ∧
      ∀ n ≤ r.height, ∀ reason, stop.FailsFirst n reason →
        (im.decodeInto rect o target stop).1.result = .ok (.cancelled reason) ∧
          (im.decodeInto rect o target stop).1.checks = n + 1 ∧
          (n = 0 → (im.decodeInto rect o target stop).2.1 = target) ∧
          (0 < n → target.CutShort (im.decodeInto rect o target .never).2.1
            (im.decodeInto rect o target stop).2.1 r o (n - 1)) := by
  constructor
  · intro b r hfull
    obtain ⟨hplan, hended, storage, ha, _⟩ := decode_decoded hfull
    have hp := paintable_of_finished hended
    constructor
    · intro hpass
      have hplan' := (plan_congr (hpass 0 (Nat.zero_le _))).trans hplan
      rw [← hfull, (decode_passes hp hplan ha (Stop.never_passes _)).1]
      exact decode_passes hp hplan' ha hpass
    · intro n hn reason hf
      exact decode_fails hp hplan ha hf hn
  · intro target r hfull
    obtain ⟨hplan, hsize, hended⟩ := decodeInto_decoded hfull
    have hp := paintable_of_finished hended
    constructor
    · intro hpass
      have hplan' := (plan_congr (hpass 0 (Nat.zero_le _))).trans hplan
      rw [(decodeInto_passes hp hplan hsize (Stop.never_passes _)).2.2]
      exact decodeInto_passes hp hplan' hsize hpass
    · intro n hn reason hf
      obtain ⟨hresult, hchecks, hkept, _⟩ := decodeInto_fails hp hplan hsize hf hn
      refine ⟨hresult, hchecks, hkept, fun hpos => ?_⟩
      obtain ⟨m, rfl⟩ : ∃ m, n = m + 1 := ⟨n - 1, by omega⟩
      exact cutShort_of_paintable hp hplan hsize hf hn

theorem cancellation_keeps_whole_rows_of_stamp :
    let b : Bitmap := ⟨1, 1, .gray8, false, 6, .replicate 30 9⟩
    let o : Options := ⟨1, some .rgb565, true, true, true⟩
    let r : Region := ⟨3, 2, .rgb565, ⟨0, 0, 3, 2⟩, 1, .png⟩
    (stamp.decodeInto r.rect o b (.after 2 .timedOut)).1.checks = 3 ∧
      b.CutShort (stamp.decodeInto r.rect o b .never).2.1
        (stamp.decodeInto r.rect o b (.after 2 .timedOut)).2.1 r o 1 := by
  intro b o r
  have hc : stamp.bounds.intersect? r.rect = some r.rect := by decide
  have hr : stamp.regionOf r.rect o = r := by decide
  have hs : 0 < o.sampleSize := by decide
  have hplan : stamp.plan r.rect o .never = .ok (stamp.regionOf r.rect o) :=
    plan_eq_ok hs rfl hc fun _ hm => by cases hm
  have hp := paintable_of_reads (clamped_of_intersect? hc) hs fun j _ hj => reads_stamp hc hj
  rw [hr] at hplan hp
  have hsize : r.byteLength ≤ b.capacity := by decide
  have hfull := (decodeInto_passes hp hplan hsize (Stop.never_passes _)).1
  have hf : (Stop.after 2 .timedOut).FailsFirst 2 .timedOut :=
    ⟨fun k hk => if_pos hk, rfl⟩
  have h := (cancellation_keeps_whole_rows stamp r.rect o (.after 2 .timedOut)).2 b r hfull
  obtain ⟨_, hchecks, _, hcut⟩ := h.2 2 (Nat.le_refl 2) .timedOut hf
  exact ⟨hchecks, hcut (by decide)⟩

end Image

end ImageRegion
