import ImageRegion.Proofs.Image.Agreement

namespace ImageRegion

namespace Stop

theorem never_passes (n : Nat) : ∀ k ≤ n, never k = none := fun _ _ => rfl

def FailsFirst (stop : Stop) (n : Nat) (reason : StopReason) : Prop :=
  (∀ k < n, stop k = none) ∧ stop n = some reason

theorem FailsFirst.unique {stop : Stop} {m n : Nat} {a b : StopReason}
    (ha : stop.FailsFirst m a) (hb : stop.FailsFirst n b) : m = n ∧ a = b := by
  have hmn : m = n := by
    rcases Nat.lt_trichotomy m n with h | h | h
    · have := ha.2.symm.trans (hb.1 m h)
      cases this
    · exact h
    · have := hb.2.symm.trans (ha.1 n h)
      cases this
  subst hmn
  exact ⟨rfl, Option.some.inj (ha.2.symm.trans hb.2)⟩

end Stop

namespace Painting

variable {p : Painting} {rows : SourceRows} {stop : Stop} {painted : Painted} {n : Nat}

def Paintable (p : Painting) (rows : SourceRows) : Prop :=
  ∀ y < p.region.height, ∃ row, p.sampled rows y = .ok row

theorem Paintable.halt?_eq (h : p.Paintable rows) {y : Nat} (hy : y < p.region.height) :
    p.halt? rows stop y = (stop (y + 1)).map .cancelled := by
  obtain ⟨row, hrow⟩ := h y hy
  unfold halt?
  rw [hrow]
  cases stop (y + 1) <;> rfl

theorem halt?_ne_finished (y : Nat) : p.halt? rows stop y ≠ some .finished := by
  unfold halt?
  cases stop (y + 1) with
  | some reason => simp
  | none => rcases p.sampled rows y with (fault | breach) | row <;> simp

theorem Progress.paintable (hp : p.Progress rows stop painted n)
    (hf : painted.ending = .finished) : p.Paintable rows := by
  rcases hp.ended with ⟨rfl, _, _⟩ | ⟨_, hhalt, _⟩
  · intro y hy
    exact (halt?_eq_none.mp (hp.clear y hy)).2
  · rw [hf] at hhalt
    exact absurd hhalt (halt?_ne_finished n)

theorem Paintable.size_line (h : p.Paintable rows) {y : Nat} (hy : y < p.region.height) :
    (p.line rows y).size = p.coding.format.rowBytes p.region.width := by
  have hclear : p.halt? rows .never y = none := h.halt?_eq hy
  exact Painting.size_line hclear

theorem Paintable.size_band (h : p.Paintable rows) (hn : n ≤ p.region.height) :
    (p.band rows n).size = n * p.coding.format.rowBytes p.region.width := by
  have hclear : ∀ y < n, p.halt? rows .never y = none := fun y hy => h.halt?_eq (by omega)
  exact Painting.size_band hclear

theorem Paintable.extract_band (h : p.Paintable rows) (hn : n ≤ p.region.height) {y : Nat}
    (hy : y < n) :
    (p.band rows n).extract (y * p.coding.format.rowBytes p.region.width)
      (y * p.coding.format.rowBytes p.region.width + p.coding.format.rowBytes p.region.width) =
      p.line rows y := by
  have hrow := Packing.extract_flatMap (Array.range n) (p.line rows)
    (k := p.coding.format.rowBytes p.region.width)
    (fun i hi => h.size_line (by have := Array.mem_range.mp hi; omega)) (i := y) (a := 0)
    (by simpa using hy) (Nat.le_refl _)
  rw [Array.getElem_range, Nat.add_zero] at hrow
  refine hrow.trans (Array.extract_eq_self_of_le ?_)
  exact Nat.le_of_eq (h.size_line (by omega))

theorem Paintable.ended (h : p.Paintable rows) (hp : p.Progress rows stop painted n) :
    (n = p.region.height ∧ (∀ y < n, stop (y + 1) = none) ∧ painted.ending = .finished ∧
        painted.checks = n) ∨
      n < p.region.height ∧ ∃ reason, (∀ y < n, stop (y + 1) = none) ∧
        stop (n + 1) = some reason ∧ painted.ending = .cancelled reason ∧
        painted.checks = n + 1 := by
  have hpass : ∀ y < n, stop (y + 1) = none := fun y hy => (halt?_eq_none.mp (hp.clear y hy)).1
  rcases hp.ended with ⟨hn, hended, hchecks⟩ | ⟨hlt, hhalt, hchecks⟩
  · exact .inl ⟨hn, hpass, hended, hchecks⟩
  · rw [h.halt?_eq hlt] at hhalt
    obtain ⟨reason, hreason, hended⟩ := Option.map_eq_some_iff.mp hhalt
    exact .inr ⟨hlt, reason, hpass, hreason, hended.symm, hchecks⟩

theorem tallied_ok {count y : Nat} (h : ∀ j, y ≤ j → j < y + count → ∃ row, rows j = .ok row)
    (tallies : Array Tally) : ∃ result, p.tallied rows count y tallies = .ok result := by
  induction count generalizing y tallies with
  | zero => exact ⟨tallies, rfl⟩
  | succ count ih =>
    obtain ⟨row, hrow⟩ := h y (Nat.le_refl y) (by omega)
    simp only [tallied, hrow]
    exact ih (fun j hj hlt => h j (by omega) (by omega)) _

theorem sampled_ok {y : Nat} (hcentre : ∃ row, rows (p.region.centreRow y) = .ok row)
    (hspan : ∀ j, (p.region.rows y).first ≤ j →
      j < (p.region.rows y).first + (p.region.rows y).length → ∃ row, rows j = .ok row) :
    ∃ row, p.sampled rows y = .ok row := by
  unfold sampled
  split
  · obtain ⟨tallies, ht⟩ := tallied_ok (p := p) hspan (.replicate p.region.width .zero)
    simp only [averaged, ht]
    exact ⟨_, rfl⟩
  · obtain ⟨row, hrow⟩ := hcentre
    simp only [picked, hrow]
    exact ⟨_, rfl⟩

end Painting

namespace Bitmap

def shaped (b : Bitmap) (r : Region) (o : Options) : Bitmap :=
  { b with
    width := r.width, height := r.height, format := r.format, premultiplied := o.premultiplied }

theorem reconfigure_of_le {b : Bitmap} {r : Region} (o : Options)
    (h : r.byteLength ≤ b.capacity) :
    b.reconfigure r.width r.height r.format o.premultiplied = .ok (b.shaped r o) :=
  if_neg (Nat.not_lt_of_le h)

theorem reconfigure_of_lt {b : Bitmap} {r : Region} (o : Options)
    (h : b.capacity < r.byteLength) :
    b.reconfigure r.width r.height r.format o.premultiplied =
      .error (.reuseBufferTooSmall r.byteLength b.capacity) :=
  if_pos h

end Bitmap

namespace Image

variable {im : Image} {rect : Rect} {o : Options} {stop : Stop} {r : Region} {target : Bitmap}

theorem plan_congr {stop' : Stop} (h : stop 0 = stop' 0) :
    im.plan rect o stop = im.plan rect o stop' := by
  unfold plan
  rw [h]

theorem plan_cancelled {reason : StopReason} (hs : 0 < o.sampleSize)
    (hstop : stop 0 = some reason) : im.plan rect o stop = .error (.cancelled reason) := by
  unfold plan
  simp only [Nat.ne_of_gt hs, if_false, hstop]

theorem planChecks_eq (hs : 0 < o.sampleSize) : planChecks o = 1 := if_neg (Nat.ne_of_gt hs)

theorem decode_of_storage {storage : Array UInt8} (hplan : im.plan rect o stop = .ok r)
    (ha : im.allocator.allot r.byteLength = .storage storage) :
    (im.decode rect o stop).1.result = (im.paint r o stop).ending.result
        ((Bitmap.ofStorage storage r.width r.height r.format o.premultiplied).overwrite
          (im.paint r o stop).written, r) ∧
      (im.decode rect o stop).1.checks = 1 + (im.paint r o stop).checks := by
  simp only [decode, hplan, ha, and_self]

theorem decodeInto_of_le (hplan : im.plan rect o stop = .ok r)
    (hsize : r.byteLength ≤ target.capacity) :
    (im.decodeInto rect o target stop).1.result = (im.paint r o stop).ending.result r ∧
      (im.decodeInto rect o target stop).1.checks = 1 + (im.paint r o stop).checks ∧
      (im.decodeInto rect o target stop).2.1 =
        (im.paint r o stop).onto (target.shaped r o) := by
  simp only [decodeInto, hplan, Bitmap.reconfigure_of_le o hsize, and_self]

theorem ending_result_decoded {α : Type} {ending : Ending} {a b : α}
    (h : ending.result a = .ok (.decoded b)) : ending = .finished ∧ a = b := by
  cases ending with
  | finished =>
    cases h
    exact ⟨rfl, rfl⟩
  | cancelled reason => cases h
  | failed fault => cases h
  | breached breach => cases h

theorem halt_result_ne_decoded {α : Type} (halt : Halt) (a : α) :
    halt.result ≠ .ok (.decoded a) := by
  cases halt <;> simp [Halt.result]

theorem decode_decoded {b : Bitmap}
    (h : (im.decode rect o stop).1.result = .ok (.decoded (b, r))) :
    im.plan rect o stop = .ok r ∧ (im.paint r o stop).ending = .finished ∧
      ∃ storage, im.allocator.allot r.byteLength = .storage storage ∧
        b = (Bitmap.ofStorage storage r.width r.height r.format o.premultiplied).overwrite
          (im.paint r o stop).written := by
  cases hplan : im.plan rect o stop with
  | error halt =>
    rw [decode, hplan] at h
    exact absurd h (halt_result_ne_decoded halt _)
  | ok region =>
    cases ha : im.allocator.allot region.byteLength with
    | refused error => simp [decode, hplan, ha] at h
    | abandoned message => simp [decode, hplan, ha] at h
    | storage storage =>
      rw [(decode_of_storage hplan ha).1] at h
      obtain ⟨hended, hb⟩ := ending_result_decoded h
      cases hb
      exact ⟨rfl, hended, storage, ha, rfl⟩

theorem decodeInto_decoded
    (h : (im.decodeInto rect o target stop).1.result = .ok (.decoded r)) :
    im.plan rect o stop = .ok r ∧ r.byteLength ≤ target.capacity ∧
      (im.paint r o stop).ending = .finished := by
  cases hplan : im.plan rect o stop with
  | error halt =>
    rw [decodeInto, hplan] at h
    exact absurd h (halt_result_ne_decoded halt _)
  | ok region =>
    by_cases hsize : region.byteLength ≤ target.capacity
    · rw [(decodeInto_of_le hplan hsize).1] at h
      obtain ⟨hended, rfl⟩ := ending_result_decoded h
      exact ⟨rfl, hsize, hended⟩
    · have hconf := Bitmap.reconfigure_of_lt o (Nat.lt_of_not_le hsize)
      simp [decodeInto, hplan, hconf] at h

theorem paintable_of_finished (h : (im.paint r o stop).ending = .finished) :
    (o.painting r).Paintable (im.rows r o) := by
  obtain ⟨n, hn⟩ := im.paint_progress r o stop
  exact hn.paintable h

theorem paint_ended (h : (o.painting r).Paintable (im.rows r o)) (stop : Stop) :
    ((∀ y < r.height, stop (y + 1) = none) ∧ (im.paint r o stop).ending = .finished ∧
        (im.paint r o stop).written = (o.painting r).band (im.rows r o) r.height ∧
        (im.paint r o stop).checks = r.height) ∨
      ∃ n < r.height, ∃ reason, (∀ y < n, stop (y + 1) = none) ∧ stop (n + 1) = some reason ∧
        (im.paint r o stop).ending = .cancelled reason ∧
        (im.paint r o stop).written = (o.painting r).band (im.rows r o) n ∧
        (im.paint r o stop).checks = n + 1 := by
  obtain ⟨n, hn⟩ := im.paint_progress r o stop
  rcases h.ended hn with ⟨rfl, hpass, hended, hchecks⟩ | ⟨hlt, reason, hpass, hhalted⟩
  · exact .inl ⟨hpass, hended, hn.written, hchecks⟩
  · obtain ⟨hreason, hended, hchecks⟩ := hhalted
    exact .inr ⟨n, hlt, reason, hpass, hreason, hended, hn.written, hchecks⟩

theorem paint_passes (h : (o.painting r).Paintable (im.rows r o))
    (hstop : ∀ k ≤ r.height, stop k = none) :
    (im.paint r o stop).ending = .finished ∧
      (im.paint r o stop).written = (o.painting r).band (im.rows r o) r.height ∧
      (im.paint r o stop).checks = r.height := by
  rcases paint_ended h stop with ⟨_, hpainted⟩ | ⟨n, hn, reason, _, hreason, _⟩
  · exact hpainted
  · rw [hstop (n + 1) hn] at hreason
    cases hreason

theorem paint_fails (h : (o.painting r).Paintable (im.rows r o)) {n : Nat} {reason : StopReason}
    (hf : stop.FailsFirst (n + 1) reason) (hn : n < r.height) :
    (im.paint r o stop).ending = .cancelled reason ∧
      (im.paint r o stop).written = (o.painting r).band (im.rows r o) n ∧
      (im.paint r o stop).checks = n + 1 := by
  rcases paint_ended h stop with ⟨hpass, _⟩ | ⟨m, _, reason', hpass, hreason, hpainted⟩
  · have := (hpass n hn).symm.trans hf.2
    cases this
  · have hf' : stop.FailsFirst (m + 1) reason' := by
      refine ⟨fun k hk => ?_, hreason⟩
      cases k with
      | zero => exact hf.1 0 (Nat.succ_pos n)
      | succ k => exact hpass k (Nat.lt_of_succ_lt_succ hk)
    obtain ⟨hmn, rfl⟩ := hf'.unique hf
    obtain rfl := Nat.succ.inj hmn
    exact hpainted

theorem onto_of_paintable (h : (o.painting r).Paintable (im.rows r o)) (b : Bitmap) :
    (im.paint r o stop).onto b = (b.overwrite (im.paint r o stop).written).touch := by
  rcases paint_ended h stop with ⟨_, hended, _⟩ | ⟨n, _, reason, _, _, hended, _⟩
  · simp only [Painted.onto, hended]
  · simp only [Painted.onto, hended]

section Paintable

variable (h : (o.painting r).Paintable (im.rows r o))

include h

theorem decode_passes {storage : Array UInt8} (hplan : im.plan rect o stop = .ok r)
    (ha : im.allocator.allot r.byteLength = .storage storage)
    (hstop : ∀ k ≤ r.height, stop k = none) :
    (im.decode rect o stop).1.result = .ok (.decoded
        ((Bitmap.ofStorage storage r.width r.height r.format o.premultiplied).overwrite
          ((o.painting r).band (im.rows r o) r.height), r)) ∧
      (im.decode rect o stop).1.checks = r.height + 1 := by
  obtain ⟨hended, hwritten, hchecks⟩ := paint_passes h hstop
  obtain ⟨hresult, hcount⟩ := decode_of_storage hplan ha
  rw [hresult, hcount, hended, hwritten, hchecks]
  exact ⟨rfl, Nat.add_comm _ _⟩

theorem decode_fails {storage : Array UInt8} (hplan : im.plan rect o .never = .ok r)
    (ha : im.allocator.allot r.byteLength = .storage storage) {n : Nat} {reason : StopReason}
    (hf : stop.FailsFirst n reason) (hn : n ≤ r.height) :
    (im.decode rect o stop).1.result = .ok (.cancelled reason) ∧
      (im.decode rect o stop).1.checks = n + 1 := by
  cases n with
  | zero =>
    have hs := (plan_ok hplan).1
    simp only [decode, plan_cancelled hs hf.2, planChecks_eq hs]
    exact ⟨rfl, trivial⟩
  | succ n =>
    obtain ⟨hended, _, hchecks⟩ := paint_fails h hf hn
    obtain ⟨hresult, hcount⟩ :=
      decode_of_storage ((plan_congr (hf.1 0 (Nat.succ_pos n))).trans hplan) ha
    rw [hresult, hcount, hended, hchecks]
    exact ⟨rfl, Nat.add_comm _ _⟩

theorem decodeInto_passes (hplan : im.plan rect o stop = .ok r)
    (hsize : r.byteLength ≤ target.capacity) (hstop : ∀ k ≤ r.height, stop k = none) :
    (im.decodeInto rect o target stop).1.result = .ok (.decoded r) ∧
      (im.decodeInto rect o target stop).1.checks = r.height + 1 ∧
      (im.decodeInto rect o target stop).2.1 = ((target.shaped r o).overwrite
        ((o.painting r).band (im.rows r o) r.height)).touch := by
  obtain ⟨hended, hwritten, hchecks⟩ := paint_passes h hstop
  obtain ⟨hresult, hcount, honto⟩ := decodeInto_of_le hplan hsize
  rw [hresult, hcount, honto, onto_of_paintable h, hended, hwritten, hchecks]
  exact ⟨rfl, Nat.add_comm _ _, rfl⟩

theorem decodeInto_fails (hplan : im.plan rect o .never = .ok r)
    (hsize : r.byteLength ≤ target.capacity) {n : Nat} {reason : StopReason}
    (hf : stop.FailsFirst n reason) (hn : n ≤ r.height) :
    (im.decodeInto rect o target stop).1.result = .ok (.cancelled reason) ∧
      (im.decodeInto rect o target stop).1.checks = n + 1 ∧
      (n = 0 → (im.decodeInto rect o target stop).2.1 = target) ∧
      (0 < n → (im.decodeInto rect o target stop).2.1 =
        ((target.shaped r o).overwrite ((o.painting r).band (im.rows r o) (n - 1))).touch) := by
  cases n with
  | zero =>
    have hs := (plan_ok hplan).1
    simp only [decodeInto, plan_cancelled hs hf.2, planChecks_eq hs]
    exact ⟨rfl, trivial, fun _ => trivial, fun h => absurd h (Nat.lt_irrefl 0)⟩
  | succ n =>
    obtain ⟨hended, hwritten, hchecks⟩ := paint_fails h hf hn
    obtain ⟨hresult, hcount, honto⟩ :=
      decodeInto_of_le ((plan_congr (hf.1 0 (Nat.succ_pos n))).trans hplan) hsize
    rw [hresult, hcount, honto, onto_of_paintable h, hended, hwritten, hchecks]
    exact ⟨rfl, Nat.add_comm _ _, fun h => absurd h (Nat.succ_ne_zero n), fun _ => rfl⟩

end Paintable

theorem paintable_of_reads {c : Rect} (hc : im.Clamped c) (hs : 0 < o.sampleSize)
    (hreads : ∀ j, c.top.toNat ≤ j → j < c.bottom.toNat → im.Reads c j) :
    (o.painting (im.regionOf c o)).Paintable (im.rows (im.regionOf c o) o) := by
  have hrow (j : Nat) (hj : c.top.toNat ≤ j) (hlt : j < c.bottom.toNat) :
      ∃ row, im.rows (im.regionOf c o) o j = .ok row := by
    obtain ⟨row, hr⟩ := hreads j hj hlt
    rw [Index.readRow_fst] at hr
    exact ⟨row, hr⟩
  intro y hy
  have hfirst := first_lt_bottom hc hs hy
  apply Painting.sampled_ok
  · apply hrow
    all_goals
      rw [show (o.painting (im.regionOf c o)).region = im.regionOf c o from rfl,
        centreRow_eq hc hs]
      omega
  · intro j hj hlt
    rw [show (o.painting (im.regionOf c o)).region = im.regionOf c o from rfl,
      rows_regionOf hc] at hj hlt
    simp only [Span.length] at hj hlt
    exact hrow j (by omega) (by omega)

end Image

end ImageRegion
