import ImageRegion.Proofs.Image.Delivery
import ImageRegion.Proofs.Sampling.Partition

namespace ImageRegion

open Finset

def Rect.blockAverage (c : Rect) (sample : Nat) (P : Nat → Nat → Pixel) (x y : Nat) : Pixel :=
  (c.block sample x y).average P

namespace Painting

variable {p : Painting} {rows : SourceRows}

theorem tallyRow_counting (row : Array Pixel) (pixel : Nat → Pixel) (hcut : p.region.IsCut)
    (hsize : row.size = p.region.sourceWidth)
    (hpixel : ∀ i, (h : i < row.size) → row[i] = pixel i) (sums : Nat → (Pixel → Nat) → Nat) :
    p.tallyRow row (Array.ofFn fun x : Fin p.region.width => Tally.counting (sums x)) =
      Array.ofFn fun x : Fin p.region.width =>
        Tally.counting fun w => sums x w + p.region.across x pixel w := by
  apply Array.ext
  · simp [tallyRow]
  · intro x hx _
    have hlt : x < p.region.width := by simpa [tallyRow] using hx
    obtain ⟨hfirst, hstop⟩ := hcut x hlt
    simp only [tallyRow, Array.getElem_mapIdx, Array.getElem_ofFn]
    rw [← hsize] at hstop
    exact Tally.counting_foldl hstop hpixel hfirst (sums x)

theorem tallied_counting {P : Nat → Nat → Pixel} {left count y : Nat} (hcut : p.region.IsCut)
    (hrows : ∀ j, y ≤ j → j < y + count → rows j =
      .ok (Array.ofFn fun i : Fin p.region.sourceWidth => P (left + i) j))
    (sums : Nat → (Pixel → Nat) → Nat) :
    p.tallied rows count y
        (Array.ofFn fun x : Fin p.region.width => Tally.counting (sums x)) =
      .ok (Array.ofFn fun x : Fin p.region.width => Tally.counting fun w => sums x w +
        ∑ j ∈ Ico y (y + count), p.region.across x (fun i => P (left + i) j) w) := by
  -- Before row `y` each tally counts what its block has in the rows above.
  induction count generalizing y sums with
  | zero => simp [tallied]
  | succ count ih =>
    have hrow := tallyRow_counting
      (Array.ofFn fun i : Fin p.region.sourceWidth => P (left + i) y) (fun i => P (left + i) y)
      hcut Array.size_ofFn (fun i h => Array.getElem_ofFn h) sums
    simp only [tallied, hrows y (Nat.le_refl y) (by omega), hrow]
    rw [ih (fun j hj hlt => hrows j (by omega) (by omega))
      fun x w => sums x w + p.region.across x (fun i => P (left + i) y) w]
    congr 2
    funext x
    congr 1
    funext w
    rw [Finset.sum_eq_sum_Ico_succ_bot (by omega : y < y + (count + 1)), Nat.add_assoc,
      Nat.add_right_comm y 1 count, Nat.add_assoc y count 1]

end Painting

namespace Image

variable {im : Image} {c : Rect} {o : Options} {P : Nat → Nat → Pixel}

theorem tallied_block (hP : im.index.Holds im.feed.stream.content P) (hc : im.Clamped c)
    (hs : 0 < o.sampleSize) {y : Nat} (hy : y < (im.regionOf c o).height)
    (hreads : ∀ j, ((im.regionOf c o).rows y).first ≤ j → j < ((im.regionOf c o).rows y).stop →
      im.Reads c j) :
    (o.painting (im.regionOf c o)).tallied (im.rows (im.regionOf c o) o)
        ((im.regionOf c o).rows y).length ((im.regionOf c o).rows y).first
        (.replicate (im.regionOf c o).width .zero) =
      .ok (Array.ofFn fun x : Fin (im.regionOf c o).width =>
        Tally.counting ((c.block o.sampleSize x y).total P)) := by
  have hfirst := first_lt_bottom hc hs hy
  have hbottom : (c.bottom.toNat : Int) ≤ im.height := by
    have := hc.top
    have := hc.height
    have := hc.bottom
    omega
  have hend : ((im.regionOf c o).rows y).first + ((im.regionOf c o).rows y).length =
      ((im.regionOf c o).rows y).stop := by
    rw [rows_regionOf hc, Span.length]
    dsimp only
    omega
  have hempty : Array.replicate (im.regionOf c o).width Tally.zero =
      Array.ofFn fun x : Fin (im.regionOf c o).width => Tally.counting fun _ => 0 := by
    apply Array.ext
    · simp
    · intro x _ _
      simp [Tally.counting_zero]
  have hrows : ∀ j, ((im.regionOf c o).rows y).first ≤ j →
      j < ((im.regionOf c o).rows y).first + ((im.regionOf c o).rows y).length →
      im.rows (im.regionOf c o) o j =
        .ok (Array.ofFn fun i : Fin c.width => P (c.left.toNat + i) j) := by
    intro j hj hlt
    rw [hend] at hlt
    have hread := hreads j hj hlt
    rw [rows_regionOf hc] at hlt
    dsimp only at hlt
    exact hread.rowOf hP hc (by omega)
  rw [hempty]
  refine (Painting.tallied_counting (isCut_regionOf hc hs) hrows fun _ _ => 0).trans ?_
  congr 2
  funext x
  congr 1
  funext w
  rw [hend, total_block hc, Nat.zero_add]
  rfl

theorem tallied_blocks (hP : im.index.Holds im.feed.stream.content P) (hc : im.Clamped c)
    (hs : 0 < o.sampleSize) {y : Nat} (hy : y < (im.regionOf c o).height)
    (hreads : ∀ j, c.top.toNat ≤ j → j < c.bottom.toNat → im.Reads c j) :
    (o.painting (im.regionOf c o)).tallied (im.rows (im.regionOf c o) o)
        ((im.regionOf c o).rows y).length ((im.regionOf c o).rows y).first
        (.replicate (im.regionOf c o).width .zero) =
      .ok (Array.ofFn fun x : Fin (im.regionOf c o).width =>
        Tally.counting ((c.block o.sampleSize x y).total P)) := by
  apply tallied_block hP hc hs hy
  intro j hj hlt
  rw [rows_regionOf hc] at hj hlt
  dsimp only at hj hlt
  exact hreads j (by omega) (by omega)

theorem sampled_averages (hP : im.index.Holds im.feed.stream.content P) (hc : im.Clamped c)
    (hs : 0 < o.sampleSize) (hq : o.quality = true) {y : Nat}
    (hy : y < (im.regionOf c o).height)
    (hreads : ∀ j, c.top.toNat ≤ j → j < c.bottom.toNat → im.Reads c j)
    (hcard : ∀ x < (im.regionOf c o).width, (c.block o.sampleSize x y).card ≤ 2 ^ 48) :
    (o.painting (im.regionOf c o)).sampled (im.rows (im.regionOf c o) o) y =
      .ok (Array.ofFn fun x : Fin (im.regionOf c o).width =>
        c.blockAverage o.sampleSize P x y) := by
  have ht := tallied_blocks hP hc hs hy hreads
  unfold Painting.sampled Painting.averaged
  simp only [Options.painting, hq, if_true] at ht ⊢
  rw [ht]
  simp only
  congr 1
  apply Array.ext
  · simp
  · intro x hx _
    have hlt : x < (im.regionOf c o).width := by simpa using hx
    simp only [Array.getElem_mapIdx, Array.getElem_ofFn]
    rw [Rect.blockAverage, ← Block.average_counting (hcard x hlt), card_block hc]

/-- The words of each tally are the sums over its block: none has wrapped around on the way. -/
def SumsExact (im : Image) (c : Rect) (o : Options) (P : Nat → Nat → Pixel) : Prop :=
  ∀ f : Feed, f.stream.answers = im.feed.stream.answers → ∀ y < (im.regionOf c o).height,
    ∃ tallies, ((o.painting (im.regionOf c o)).tallyRows im.index
        ((im.regionOf c o).rows y).length ((im.regionOf c o).rows y).first f
        (.replicate (im.regionOf c o).width .zero)).1 = .ok tallies ∧
      ∀ x < (im.regionOf c o).width, (c.block o.sampleSize x y).Tallied P (tallies.getD x .zero)

theorem sumsExact_of_card (hP : im.index.Holds im.feed.stream.content P) (hc : im.Clamped c)
    (hs : 0 < o.sampleSize)
    (hreads : ∀ j, c.top.toNat ≤ j → j < c.bottom.toNat → im.Reads c j)
    (hcard : ∀ x < (im.regionOf c o).width, ∀ y < (im.regionOf c o).height,
      (c.block o.sampleSize x y).card ≤ 2 ^ 48) : im.SumsExact c o P := by
  intro f hf y hy
  obtain ⟨f', _, ht⟩ := (o.painting (im.regionOf c o)).tallyRows_eq im.index
    ((im.regionOf c o).rows y).length ((im.regionOf c o).rows y).first f
    (.replicate (im.regionOf c o).width .zero)
  rw [hf] at ht
  refine ⟨_, (congrArg Prod.fst ht).trans (tallied_blocks hP hc hs hy hreads), fun x hx => ?_⟩
  rw [Array.getD_eq_getD_getElem?, Array.getElem?_ofFn, dif_pos hx, Option.getD_some]
  exact Block.tallied_counting (hcard x hx y hy)

theorem decode_shows_averages {rect : Rect} {stop : Stop} {r : Region}
    (hP : im.index.Holds im.feed.stream.content P)
    (hc : im.bounds.intersect? rect = some c) (hs : 0 < o.sampleSize) (hq : o.quality = true)
    (hr : im.regionOf c o = r) (hl : Limits.Admits im.limits.regionBytes r.byteLength)
    (hstop : ∀ k ≤ r.height, stop k = none)
    (hreads : ∀ j, c.top.toNat ≤ j → j < c.bottom.toNat → im.Reads c j)
    (hcard : ∀ x < r.width, ∀ y < r.height, (c.block o.sampleSize x y).card ≤ 2 ^ 48) :
    (∀ storage, im.allocator.allot r.byteLength = .storage storage →
      r.byteLength ≤ storage.size →
      ∃ b, (im.decode rect o stop).1.result = .ok (.decoded (b, r)) ∧
        b.Depicts r o (c.blockAverage o.sampleSize P)) ∧
    (∀ target : Bitmap, r.byteLength ≤ target.capacity →
      (im.decodeInto rect o target stop).1.result = .ok (.decoded r) ∧
        (im.decodeInto rect o target stop).2.1.Depicts r o (c.blockAverage o.sampleSize P)) ∧
    (∀ x y, (c.block o.sampleSize x y).Averaged P (c.blockAverage o.sampleSize P x y)) ∧
    (∀ i j : Nat, c.Contains i j → ∃! q : Nat × Nat, q.1 < r.width ∧ q.2 < r.height ∧
      (i, j) ∈ c.block o.sampleSize q.1 q.2) ∧
    ∀ f : Feed, f.stream.answers = im.feed.stream.answers → ∀ y < r.height, ∃ tallies,
      ((o.painting r).tallyRows im.index (r.rows y).length (r.rows y).first f
        (.replicate r.width .zero)).1 = .ok tallies ∧
      ∀ x < r.width, (c.block o.sampleSize x y).Tallied P (tallies.getD x .zero) ∧
        (r.columns x).length * (r.rows y).length = (c.block o.sampleSize x y).card := by
  have hplan : im.plan rect o stop = .ok r :=
    hr ▸ plan_eq_ok hs (hstop 0 (Nat.zero_le _)) hc (hr ▸ hl)
  have hclamped := clamped_of_intersect? hc
  subst hr
  have hshown : ∀ y < (im.regionOf c o).height,
      (o.painting (im.regionOf c o)).sampled (im.rows (im.regionOf c o) o) y =
        .ok (Array.ofFn fun x : Fin (im.regionOf c o).width =>
          c.blockAverage o.sampleSize P x y) :=
    fun y hy => sampled_averages hP hclamped hs hq hy hreads fun x hx => hcard x hx y hy
  refine ⟨?_, ?_, ?_, ?_, ?_⟩
  · intro storage ha hsize
    obtain ⟨b, hb, _, hd⟩ := decode_depicts hplan hstop hshown ha hsize
    exact ⟨b, hb, hd⟩
  · intro target hsize
    obtain ⟨hresult, _, hd⟩ := decodeInto_depicts hplan hstop hshown hsize
    exact ⟨hresult, hd⟩
  · exact fun x y => Block.averaged_average _ P
  · exact fun i j h => Rect.existsUnique_block hclamped.left hclamped.top hs h
  · intro f hf y hy
    obtain ⟨tallies, htallies, hexact⟩ := sumsExact_of_card hP hclamped hs hreads hcard f hf y hy
    exact ⟨tallies, htallies, fun x hx => ⟨hexact x hx, (card_block hclamped x y).symm⟩⟩

theorem decode_shows_averages_of_stamp : ∃ b,
    (stamp.decode ⟨-1, 0, 9, 2⟩ ⟨2, none, true, true, false⟩ .never).1.result =
      .ok (.decoded (b, ⟨2, 1, .rgba8, ⟨0, 0, 3, 2⟩, 2, .png⟩)) ∧
      b.Depicts ⟨2, 1, .rgba8, ⟨0, 0, 3, 2⟩, 2, .png⟩ ⟨2, none, true, true, false⟩
        (Rect.blockAverage ⟨0, 0, 3, 2⟩ 2 stampPixel) := by
  have hc : stamp.bounds.intersect? ⟨-1, 0, 9, 2⟩ = some ⟨0, 0, 3, 2⟩ := by decide
  have hcard : ∀ x < 2, ∀ y < 1, (Rect.block ⟨0, 0, 3, 2⟩ 2 x y).card ≤ 2 ^ 48 := by decide
  have h := decode_shows_averages (o := ⟨2, none, true, true, false⟩) holds_stamp hc
    (by decide) rfl rfl (fun _ hm => by cases hm) (fun _ _ => rfl)
    (fun y _ hy => reads_stamp hc hy) hcard
  exact h.1 (.replicate 8 0) rfl (by decide)

example : Rect.blockAverage ⟨0, 0, 3, 2⟩ 2 stampPixel 1 0 = ⟨255, 255, 255, 128⟩ := by decide

end Image

end ImageRegion
