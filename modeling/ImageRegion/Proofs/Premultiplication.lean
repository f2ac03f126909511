import ImageRegion.Proofs.Image.Pacing
import ImageRegion.Proofs.Sampling.Blocks

namespace ImageRegion

section

variable (c a : UInt8)

theorem premultiply_eq_round :
    ((premultiply c a).toNat : Int) = round (((c.toNat * a.toNat : Nat) : ℚ) / 255) := by
  have hpos : 0 < 255 := by decide
  have hround := Block.rounded_eq_round hpos (c.toNat * a.toNat)
  rw [premultiply_toNat]
  exact_mod_cast hround

theorem premultiply_le : premultiply c a ≤ a := by
  have hc := c.toNat_lt
  have hle : c.toNat * a.toNat ≤ 255 * a.toNat := Nat.mul_le_mul_right _ (by omega)
  rw [UInt8.le_iff_toNat_le, premultiply_toNat]
  omega

theorem premultiply_zero : premultiply c 0 = 0 := by
  apply UInt8.toNat_inj.mp
  rw [premultiply_toNat, UInt8.toNat_zero]
  omega

theorem premultiply_255 : premultiply c 255 = c := by
  apply UInt8.toNat_inj.mp
  rw [premultiply_toNat, show (255 : UInt8).toNat = 255 from rfl]
  omega

end

namespace Pixel

def bytes (p : Pixel) : Array UInt8 := #[p.red, p.green, p.blue, p.alpha]

def premultiplied (p : Pixel) : Pixel :=
  ⟨premultiply p.red p.alpha, premultiply p.green p.alpha, premultiply p.blue p.alpha, p.alpha⟩

structure Premultiplies (p q : Pixel) : Prop where
  alpha : q.alpha = p.alpha
  nearest : ∀ c : Colour,
    ((c.sample q).toNat : Int) = round (((c.sample p).toNat * p.alpha.toNat : Nat) / 255 : ℚ)
  le_alpha : ∀ c : Colour, c.sample q ≤ q.alpha
  clear : p.alpha = 0 → q = .clear
  full : p.alpha = 255 → q = p

theorem sample_premultiplied (p : Pixel) (c : Colour) :
    c.sample p.premultiplied = premultiply (c.sample p) p.alpha := by
  cases c <;> rfl

theorem premultiplies_premultiplied (p : Pixel) : p.Premultiplies p.premultiplied := by
  constructor
  · rfl
  · intro c
    rw [sample_premultiplied]
    exact premultiply_eq_round _ _
  · intro c
    rw [sample_premultiplied]
    exact premultiply_le _ _
  · intro h
    simp only [premultiplied, h, premultiply_zero]
    rfl
  · intro h
    simp only [premultiplied, h, premultiply_255]
    rw [← h]

end Pixel

namespace Coding

variable {f : PixelFormat} {dither : Bool} {x y : Nat} {p : Pixel}

theorem pixel_straight : Coding.pixel ⟨.rgba8, false, dither⟩ x y p = p.bytes := rfl

theorem pixel_premultiplied :
    Coding.pixel ⟨.rgba8, true, dither⟩ x y p = p.premultiplied.bytes := by
  by_cases h : p.alpha = 255
  · rw [(p.premultiplies_premultiplied).full h]
    simp only [pixel, h, bne_self_eq_false, Bool.and_false, Bool.false_eq_true, if_false]
    rw [← h]
    rfl
  · have hne : (p.alpha != 255) = true := bne_iff_ne.mpr h
    simp only [pixel, hne, Bool.and_true, if_true]
    rfl

theorem pixel_of_ne_rgba8 (h : f ≠ .rgba8) (m m' : Bool) :
    Coding.pixel ⟨f, m, dither⟩ x y p = Coding.pixel ⟨f, m', dither⟩ x y p := by
  cases f with
  | rgba8 => exact absurd rfl h
  | rgb565 => rfl
  | gray8 => rfl
  | alpha8 => rfl

end Coding

namespace Painting

variable (p : Painting) (k : Coding) (rows : SourceRows)

def coded : Painting := { p with coding := k }

theorem tallied_coded (count y : Nat) (tallies : Array Tally) :
    (p.coded k).tallied rows count y tallies = p.tallied rows count y tallies := by
  induction count generalizing y tallies with
  | zero => rfl
  | succ count ih =>
    simp only [tallied, ih]
    rfl

theorem sampled_coded (y : Nat) : (p.coded k).sampled rows y = p.sampled rows y := by
  simp only [sampled, averaged, tallied_coded]
  rfl

end Painting

namespace Image

variable {im : Image} {rect : Rect} {o : Options} {r : Region}

theorem sampled_premultiplied (m : Bool) (rows : SourceRows) (y : Nat) :
    (Options.painting { o with premultiplied := m } r).sampled rows y =
      (o.painting r).sampled rows y :=
  (o.painting r).sampled_coded ⟨r.format, m, o.dither⟩ rows y

theorem paces_premultiplied (im : Image) (rect : Rect) (o : Options) (m : Bool) :
    im.Paces rect o { o with premultiplied := m } := by
  refine ⟨rfl, rfl, fun c _ _ => ⟨rfl, fun y _ => ?_⟩⟩
  rw [sampled_premultiplied]

theorem premultiplied_decodeInto {stop : Stop} {target : Bitmap}
    (hplan : im.plan rect o stop = .ok r) (hsize : r.byteLength ≤ target.capacity) :
    (im.decodeInto rect o target stop).2.1.premultiplied = o.premultiplied := by
  rw [(decodeInto_of_le hplan hsize).2.2]
  unfold Painted.onto
  split <;> rfl

/-- The same request with straight and with multiplied colours: both come to the same end, in as
many checks, and one bitmap shows each pixel of the other multiplied, or the same bytes where the
format has no place for both colour and opacity. Which it is, is always said by the bitmap. -/
theorem premultiplication_commutes (im : Image) (rect : Rect) (o : Options) :
    let straight : Options := { o with premultiplied := false }
    let multiplied : Options := { o with premultiplied := true }
    (∀ stop,
      (im.decode rect multiplied stop).1.map Prod.snd =
        (im.decode rect straight stop).1.map Prod.snd ∧
      ∀ target, (im.decodeInto rect multiplied target stop).1 =
        (im.decodeInto rect straight target stop).1) ∧
    (∀ (f f' : Feed) (a a' : Allocator), f.stream.answers = im.feed.stream.answers →
      f'.stream.answers = im.feed.stream.answers → ∀ b b' r r',
      (im.fedBy f a).Gives rect straight b r → (im.fedBy f' a').Gives rect multiplied b' r' →
      r' = r ∧ (r.format ≠ .rgba8 → b'.bytes = b.bytes) ∧
        (r.format = .rgba8 → ∀ x < r.width, ∀ y < r.height, ∃ p q : Pixel, p.Premultiplies q ∧
          b.pixelBytes x y = #[p.red, p.green, p.blue, p.alpha] ∧
          b'.pixelBytes x y = #[q.red, q.green, q.blue, q.alpha])) ∧
    (∀ b r, im.Gives rect o b r → b.premultiplied = o.premultiplied) ∧
    ∀ stop target r, im.plan rect o stop = .ok r → r.byteLength ≤ target.capacity →
      (im.decodeInto rect o target stop).2.1.premultiplied = o.premultiplied := by
  intro straight multiplied
  have hpaces : im.Paces rect straight multiplied := im.paces_premultiplied rect straight true
  refine ⟨fun stop => ⟨hpaces.decode_eq stop, fun target => hpaces.decodeInto_eq target stop⟩,
    ?pixels, fun b r h => h.carries.2.premultiplied,
    fun _ _ _ hplan hsize => premultiplied_decodeInto hplan hsize⟩
  case pixels =>
    intro f f' a a' hf hf' b b' r r' h h'
    obtain rfl : r' = r := h.region_eq h' rfl rfl
    have hshown : ∀ x < r'.width, ∀ y < r'.height, ∃ p,
        b.pixelBytes x y = Coding.pixel ⟨r'.format, false, o.dither⟩ x y p ∧
          b'.pixelBytes x y = Coding.pixel ⟨r'.format, true, o.dither⟩ x y p := by
      intro x hx y hy
      obtain ⟨row, p, hrow, hp, hpixel⟩ := h.pixelBytes_eq hf hx hy
      obtain ⟨row', p', hrow', hp', hpixel'⟩ := h'.pixelBytes_eq hf' hx hy
      have hsame : (multiplied.painting r').sampled (im.rows r' multiplied) y =
          (straight.painting r').sampled (im.rows r' straight) y :=
        sampled_premultiplied (o := straight) true _ y
      rw [hsame, hrow] at hrow'
      cases hrow'
      rw [hp] at hp'
      cases hp'
      exact ⟨p, hpixel, hpixel'⟩
    refine ⟨rfl, fun hformat => h.bytes_ext h' fun x hx y hy => ?_, fun hformat x hx y hy => ?_⟩
    · obtain ⟨p, hpixel, hpixel'⟩ := hshown x hx y hy
      rw [hpixel, hpixel']
      exact Coding.pixel_of_ne_rgba8 hformat true false
    · obtain ⟨p, hpixel, hpixel'⟩ := hshown x hx y hy
      rw [hformat] at hpixel hpixel'
      exact ⟨p, p.premultiplied, p.premultiplies_premultiplied, hpixel.trans Coding.pixel_straight,
        hpixel'.trans Coding.pixel_premultiplied⟩

theorem premultiplication_commutes_of_stamp :
    let rect : Rect := ⟨-1, 0, 9, 2⟩
    let r : Region := ⟨2, 1, .rgba8, ⟨0, 0, 3, 2⟩, 2, .png⟩
    ∃ b b', stamp.Gives rect ⟨2, none, false, true, false⟩ b r ∧
      stamp.Gives rect ⟨2, none, false, true, true⟩ b' r ∧
      ∃ p q : Pixel, p.Premultiplies q ∧
        b.pixelBytes 1 0 = #[p.red, p.green, p.blue, p.alpha] ∧
        b'.pixelBytes 1 0 = #[q.red, q.green, q.blue, q.alpha] := by
  intro rect r
  have hc : stamp.bounds.intersect? rect = some ⟨0, 0, 3, 2⟩ := by decide
  have hgives (m : Bool) : ∃ b, stamp.Gives rect ⟨2, none, false, true, m⟩ b r := by
    have hr : stamp.regionOf ⟨0, 0, 3, 2⟩ ⟨2, none, false, true, m⟩ = r := by decide +revert
    have hallot : Allocator.heap.allot r.byteLength = .storage (.replicate 8 0) := rfl
    rw [← hr] at hallot ⊢
    exact exists_gives hc (Nat.succ_pos 1) (fun _ hm => by cases hm) hallot
      fun y _ hy => reads_stamp hc hy
  obtain ⟨b, h⟩ := hgives false
  obtain ⟨b', h'⟩ := hgives true
  obtain ⟨_, hpixels, _⟩ := premultiplication_commutes stamp rect ⟨2, none, false, true, false⟩
  obtain ⟨_, _, hshown⟩ := hpixels stamp.feed stamp.feed .heap .heap rfl rfl b b' r r h h'
  exact ⟨b, b', h, h', hshown rfl 1 (by decide) 0 (by decide)⟩

end Image

end ImageRegion
