import ImageRegion.Proofs.Image.Agreement

namespace ImageRegion

namespace Decoding

variable {α : Type} {d : Decoding α}

def IsRejected (d : Decoding α) : Prop :=
  match d.result with
  | .error (.error .invalidSampleSize) => True
  | .error (.error (.emptyRegion _)) => True
  | .error (.error (.limitExceeded _)) => True
  | .error (.error (.reuseBufferTooSmall _ _)) => True
  | .ok (.cancelled _) => d.checks = 1
  | _ => False

def HasPainted (d : Decoding α) : Prop :=
  match d.result with
  | .ok (.decoded _) => True
  | .ok (.cancelled _) => 1 < d.checks
  | .error (.error (.decodeFailed _)) => True
  | _ => False

theorem not_hasPainted_of_isRejected (h : d.IsRejected) : ¬d.HasPainted := by
  unfold IsRejected at h
  unfold HasPainted
  split at h <;> simp_all

end Decoding

structure Bitmap.Repainted (before after : Bitmap) (r : Region) (o : Options) : Prop where
  generation : after.generation = before.generation + 1
  width : after.width = r.width
  height : after.height = r.height
  format : after.format = r.format
  premultiplied : after.premultiplied = o.premultiplied
  capacity : after.capacity = before.capacity
  rest : ∀ i, after.format.rowBytes after.width * after.height ≤ i →
    after.storage[i]? = before.storage[i]?

theorem Bitmap.getElem?_overwrite {b : Bitmap} {written : Array UInt8} {i : Nat}
    (h : written.size ≤ i) : (b.overwrite written).storage[i]? = b.storage[i]? := by
  simp only [overwrite]
  rw [Array.getElem?_append_right h, Array.getElem?_extract]
  split
  · congr 1
    omega
  · rw [Array.getElem?_eq_none]
    omega

namespace Image

variable {im : Image} {rect : Rect} {o : Options} {stop : Stop}

theorem isRejected_of_plan_error {α : Type} {halt : Halt} {events : List Event}
    (h : im.plan rect o stop = .error halt) :
    (⟨halt.result, planChecks o, [], events⟩ : Decoding α).IsRejected := by
  unfold plan at h
  split at h
  · cases h
    exact trivial
  next hs =>
    split at h
    · cases h
      show planChecks o = 1
      exact if_neg hs
    · split at h
      · cases h
        exact trivial
      · dsimp only at h
        split at h
        · cases h
          exact trivial
        · cases h

theorem written_le (im : Image) (r : Region) (o : Options) (stop : Stop) :
    (im.paint r o stop).written.size ≤ r.byteLength := by
  obtain ⟨n, hn⟩ := im.paint_progress r o stop
  rw [hn.written, Painting.size_band hn.clear]
  calc n * r.format.rowBytes r.width
    _ ≤ r.height * r.format.rowBytes r.width := Nat.mul_le_mul_right _ hn.le_height
    _ = r.byteLength := Nat.mul_comm _ _

theorem hasPainted_paint {r : Region} {events : List Event}
    (hreturn : ∀ breach, (im.paint r o stop).ending ≠ .breached breach) :
    (⟨(im.paint r o stop).ending.result r, 1 + (im.paint r o stop).checks, [], events⟩ :
      Decoding Region).HasPainted := by
  obtain ⟨n, hn⟩ := im.paint_progress r o stop
  cases he : (im.paint r o stop).ending with
  | finished => exact trivial
  | failed fault => exact trivial
  | breached breach => exact absurd he (hreturn breach)
  | cancelled reason =>
    show 1 < 1 + (im.paint r o stop).checks
    rcases hn.ended with ⟨_, hfinished, _⟩ | ⟨_, _, hchecks⟩
    · rw [he] at hfinished
      cases hfinished
    · omega

theorem onto_of_returns {r : Region}
    (hreturn : ∀ breach, (im.paint r o stop).ending ≠ .breached breach) (b : Bitmap) :
    (im.paint r o stop).onto b = (b.overwrite (im.paint r o stop).written).touch := by
  unfold Painted.onto
  split
  next breach he => exact absurd he (hreturn breach)
  · rfl

theorem repainted_onto {r : Region} {target reused : Bitmap}
    (hconf : target.reconfigure r.width r.height r.format o.premultiplied = .ok reused)
    (hreturn : ∀ breach, (im.paint r o stop).ending ≠ .breached breach) :
    target.Repainted ((im.paint r o stop).onto reused) r o := by
  unfold Bitmap.reconfigure at hconf
  dsimp only at hconf
  split at hconf
  · cases hconf
  next hcapacity =>
    cases hconf
    have hle := im.written_le r o stop
    rw [onto_of_returns hreturn]
    refine ⟨rfl, rfl, rfl, rfl, rfl, ?_, ?_⟩
    · apply Bitmap.capacity_overwrite
      exact Nat.le_trans hle (Nat.le_of_not_lt hcapacity)
    · intro i hi
      exact Bitmap.getElem?_overwrite (Nat.le_trans hle hi)

theorem decodeInto_cases (im : Image) (rect : Rect) (o : Options) (target : Bitmap) (stop : Stop)
    (hreturn : (im.decodeInto rect o target stop).1.isUnwound = false) :
    ((im.decodeInto rect o target stop).1.IsRejected ∧
        (im.decodeInto rect o target stop).2.1 = target) ∨
      ((im.decodeInto rect o target stop).1.HasPainted ∧
        ∃ r, im.plan rect o stop = .ok r ∧
          target.Repainted (im.decodeInto rect o target stop).2.1 r o) := by
  unfold decodeInto at hreturn ⊢
  cases hplan : im.plan rect o stop with
  | error halt => exact .inl ⟨isRejected_of_plan_error hplan, rfl⟩
  | ok r =>
    rw [hplan] at hreturn
    dsimp only at hreturn ⊢
    cases hconf : target.reconfigure r.width r.height r.format o.premultiplied with
    | error error =>
      left
      refine ⟨?_, rfl⟩
      unfold Bitmap.reconfigure at hconf
      dsimp only at hconf
      split at hconf
      · cases hconf
        exact trivial
      · cases hconf
    | ok reused =>
      right
      rw [hconf] at hreturn
      dsimp only at hreturn ⊢
      have hending : ∀ breach, (im.paint r o stop).ending ≠ .breached breach := by
        intro breach he
        rw [he] at hreturn
        cases hreturn
      exact ⟨hasPainted_paint hending, r, rfl, repainted_onto hconf hending⟩

end Image

end ImageRegion
