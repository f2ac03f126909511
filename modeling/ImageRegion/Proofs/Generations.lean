import ImageRegion.Proofs.Reuse

namespace ImageRegion

structure Reuse where
  image : Image
  rect : Rect
  options : Options
  stop : Stop

namespace Reuse

def decoding (call : Reuse) (b : Bitmap) : Decoding Region :=
  (call.image.decodeInto call.rect call.options b call.stop).1

def on (call : Reuse) (b : Bitmap) : Bitmap :=
  (call.image.decodeInto call.rect call.options b call.stop).2.1

end Reuse

namespace Bitmap

def after (b : Bitmap) : List Reuse → Bitmap
  | [] => b
  | call :: calls => (call.on b).after calls

def Survives (b : Bitmap) : List Reuse → Prop
  | [] => True
  | call :: calls => (call.decoding b).isUnwound = false ∧ (call.on b).Survives calls

theorem after_append (b : Bitmap) (calls more : List Reuse) :
    b.after (calls ++ more) = (b.after calls).after more := by
  induction calls generalizing b with
  | nil => rfl
  | cons call calls ih => exact ih (call.on b)

theorem survives_append {b : Bitmap} {calls more : List Reuse}
    (h : b.Survives (calls ++ more)) : b.Survives calls ∧ (b.after calls).Survives more := by
  induction calls generalizing b with
  | nil => exact ⟨trivial, h⟩
  | cons call calls ih =>
    obtain ⟨hcalls, hmore⟩ := ih h.2
    exact ⟨⟨h.1, hcalls⟩, hmore⟩

theorem generation_after {b : Bitmap} {calls : List Reuse} (h : b.Survives calls) :
    ∃ n ≤ calls.length, (b.after calls).generation = b.generation + .ofNat n ∧
      (n = 0 → b.after calls = b) := by
  induction calls generalizing b with
  | nil => exact ⟨0, Nat.le_refl 0, (UInt64.add_zero _).symm, fun _ => rfl⟩
  | cons call calls ih =>
    -- The count grows with the calls that paint; one that is turned away adds nothing to it.
    obtain ⟨n, hn, hg, hsame⟩ := ih h.2
    rcases call.image.decodeInto_cases call.rect call.options b call.stop h.1 with
      ⟨_, hkept⟩ | ⟨_, r, _, hpainted⟩
    · have hkept : call.on b = b := hkept
      rw [hkept] at hg hsame
      exact ⟨n, Nat.le_succ_of_le hn, by rw [after, hkept, hg], fun h => by
        rw [after, hkept, hsame h]⟩
    · have hbump : (call.on b).generation = b.generation + 1 := hpainted.generation
      refine ⟨n + 1, Nat.succ_le_succ hn, ?_, fun h => absurd h (Nat.succ_ne_zero n)⟩
      rw [after, hg, hbump, UInt64.add_assoc, UInt64.add_comm 1, UInt64.ofNat_add]
      rfl

theorem after_eq_of_generation_eq {b : Bitmap} {calls : List Reuse} (h : b.Survives calls)
    (hlength : calls.length < 0x10000000000000000)
    (hg : (b.after calls).generation = b.generation) : b.after calls = b := by
  obtain ⟨n, hn, hcount, hsame⟩ := generation_after h
  apply hsame
  rw [hg] at hcount
  have hround := congrArg UInt64.toNat hcount
  have hword := b.generation.toNat_lt
  rw [UInt64.toNat_add, UInt64.toNat_ofNat'] at hround
  omega

theorem take_eq_of_generation_eq {b : Bitmap} {calls : List Reuse} (h : b.Survives calls)
    (hlength : calls.length < 0x10000000000000000) {i j : Nat} (hij : i ≤ j)
    (hg : (b.after (calls.take i)).generation = (b.after (calls.take j)).generation) :
    b.after (calls.take i) = b.after (calls.take j) := by
  obtain ⟨k, rfl⟩ := Nat.exists_eq_add_of_le hij
  have htake : calls.take (i + k) = calls.take i ++ (calls.drop i).take k := List.take_add
  rw [htake, after_append] at hg ⊢
  have hprefix : b.Survives (calls.take (i + k)) := by
    rw [← List.take_append_drop (i + k) calls] at h
    exact (survives_append h).1
  rw [htake] at hprefix
  refine (after_eq_of_generation_eq (survives_append hprefix).2 ?_ hg.symm).symm
  simp only [List.length_take, List.length_drop]
  omega

/-- Each call that returns is turned away and leaves the bitmap as it is, or paints and gives it the
next generation, and not both. So equal generations mean equal bitmaps. -/
theorem reuse_all_or_nothing :
    (∀ (im : Image) (rect : Rect) (o : Options) (target : Bitmap) (stop : Stop),
      (im.decodeInto rect o target stop).1.isUnwound = false →
      (((im.decodeInto rect o target stop).1.IsRejected ∧
          (im.decodeInto rect o target stop).2.1 = target) ∨
        ((im.decodeInto rect o target stop).1.HasPainted ∧
          ∃ r, im.plan rect o stop = .ok r ∧
            target.Repainted (im.decodeInto rect o target stop).2.1 r o)) ∧
      ¬((im.decodeInto rect o target stop).1.IsRejected ∧
        (im.decodeInto rect o target stop).1.HasPainted)) ∧
    ∀ (b : Bitmap) (calls : List Reuse), b.Survives calls → calls.length < 0x10000000000000000 →
      ∀ i j, (b.after (calls.take i)).generation = (b.after (calls.take j)).generation →
        b.after (calls.take i) = b.after (calls.take j) := by
  constructor
  · intro im rect o target stop hreturn
    refine ⟨im.decodeInto_cases rect o target stop hreturn, ?_⟩
    rintro ⟨hrejected, hpainted⟩
    exact Decoding.not_hasPainted_of_isRejected hrejected hpainted
  · intro b calls h hlength i j hg
    rcases Nat.le_total i j with hij | hji
    · exact take_eq_of_generation_eq h hlength hij hg
    · exact (take_eq_of_generation_eq h hlength hji hg.symm).symm

theorem reuse_all_or_nothing_on_stamp :
    let b : Bitmap := ⟨0, 0, .rgba8, true, 41, .replicate 25 9⟩
    let calls : List Reuse :=
      [⟨Image.stamp, ⟨3, 0, 9, 9⟩, .standard, .never⟩,
        ⟨Image.stamp, ⟨0, 0, 3, 2⟩, .standard, .always .cancelled⟩]
    b.after (calls.take 0) = b.after (calls.take 2) ∧
      ∃ r, Image.stamp.plan ⟨0, 0, 3, 2⟩ .standard .never = .ok r ∧
        b.Repainted (Image.stamp.decodeInto ⟨0, 0, 3, 2⟩ .standard b .never).2.1 r .standard := by
  intro b calls
  constructor
  · exact reuse_all_or_nothing.2 b calls ⟨rfl, rfl, trivial⟩ (by decide) 0 2 rfl
  · rcases (reuse_all_or_nothing.1 Image.stamp ⟨0, 0, 3, 2⟩ .standard b .never rfl).1 with
      ⟨hrejected, _⟩ | ⟨_, hpainted⟩
    · cases hrejected
    · exact hpainted

end Bitmap

end ImageRegion
