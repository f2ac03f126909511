import ImageRegion.Geometry.Rect
import ImageRegion.Geometry.Span
import ImageRegion.Pixel.Format

namespace ImageRegion

namespace Word

def unsigned32? (n : Int) : Option Nat :=
  if 0 ≤ n ∧ n < 0x100000000 then some n.toNat else none

def signed32? (n : Int) : Option Int :=
  if -0x80000000 ≤ n ∧ n < 0x80000000 then some n else none

def signed64? (n : Int) : Option Int :=
  if -0x8000000000000000 ≤ n ∧ n < 0x8000000000000000 then some n else none

def unsigned64? (n : Int) : Option Nat :=
  if 0 ≤ n ∧ n < 0x10000000000000000 then some n.toNat else none

theorem unsigned32?_of_nonneg {n : Int} (h : 0 ≤ n) (hn : n < 0x100000000) :
    unsigned32? n = some n.toNat := if_pos ⟨h, hn⟩

theorem unsigned32?_natCast {n : Nat} (h : n < 0x100000000) : unsigned32? n = some n :=
  unsigned32?_of_nonneg (by omega) (by omega)

theorem signed32?_natCast {n : Nat} (h : n < 0x80000000) : signed32? n = some (n : Int) :=
  if_pos (by omega)

theorem unsigned64?_natCast {n : Nat} (h : n < 0x10000000000000000) : unsigned64? n = some n :=
  if_pos (by omega)

def ceilDiv? (n d : Nat) : Option Nat :=
  if n % d = 0 then some (n / d) else unsigned32? (n / d + 1 : Nat)

theorem ceilDiv?_eq {n d : Nat} (hd : 0 < d) (hn : n < 0x100000000) :
    ceilDiv? n d = some (ceilDiv n d) := by
  have hle := ceilDiv_le (n := n) hd
  have hdiv := Nat.div_add_mod n d
  have hmod := Nat.mod_lt n hd
  unfold ceilDiv?
  split
  next hz =>
    have hceil : ceilDiv n d = n / d := by
      rw [ceilDiv, Nat.div_eq_iff hd]
      rw [hz, Nat.mul_comm] at hdiv
      omega
    rw [hceil]
  next hz =>
    have hceil : ceilDiv n d = n / d + 1 := by
      rw [ceilDiv, Nat.div_eq_iff hd, Nat.succ_mul]
      rw [Nat.mul_comm] at hdiv
      omega
    rw [hceil] at hle ⊢
    exact unsigned32?_natCast (by omega)

end Word

open Word

namespace Rect

def IsCoord (c : Int) : Prop := minCoord ≤ c ∧ c ≤ maxCoord

structure HasCoords (r : Rect) : Prop where
  left : IsCoord r.left
  top : IsCoord r.top
  right : IsCoord r.right
  bottom : IsCoord r.bottom

def extent? (first last : Int) : Option Nat := do
  let extent ← signed64? (last - first)
  unsigned32? (max extent 0)

def size? (r : Rect) : Option (Nat × Nat) := do
  let width ← extent? r.left r.right
  let height ← extent? r.top r.bottom
  some (width, height)

def sampled? (r : Rect) (sample : Nat) : Option (Nat × Nat) := do
  let (width, height) ← r.size?
  let across ← ceilDiv? width sample
  let down ← ceilDiv? height sample
  some (across, down)

theorem extent?_eq {first last : Int} (hfirst : IsCoord first) (hlast : IsCoord last) :
    extent? first last = some (last - first).toNat := by
  simp only [IsCoord, minCoord, maxCoord] at hfirst hlast
  have hextent : signed64? (last - first) = some (last - first) := if_pos (by omega)
  unfold extent?
  rw [hextent, Option.bind_eq_bind, Option.bind_some, unsigned32?_of_nonneg (by omega) (by omega)]
  exact congrArg some (by omega)

variable {r : Rect} {sample : Nat}

theorem HasCoords.size?_eq (h : r.HasCoords) : r.size? = some (r.width, r.height) := by
  unfold size?
  rw [extent?_eq h.left h.right, extent?_eq h.top h.bottom]
  rfl

theorem HasCoords.size_lt (h : r.HasCoords) : r.width < 0x100000000 ∧ r.height < 0x100000000 := by
  obtain ⟨⟨hleft, _⟩, ⟨htop, _⟩, ⟨_, hright⟩, ⟨_, hbottom⟩⟩ := h
  simp only [minCoord, maxCoord] at hleft htop hright hbottom
  simp only [width, height]
  omega

theorem HasCoords.sampled?_eq (h : r.HasCoords) (hs : 0 < sample) :
    r.sampled? sample = some (r.sampledSize sample) := by
  obtain ⟨hwidth, hheight⟩ := h.size_lt
  unfold sampled?
  rw [h.size?_eq]
  simp only [Option.bind_eq_bind, Option.bind_some, ceilDiv?_eq hs hwidth, ceilDiv?_eq hs hheight]
  rfl

end Rect

namespace Span

variable {origin limit : Int} {sample i : Nat}

def block? (origin limit : Int) (sample i : Nat) : Option Span := do
  let origin ← unsigned32? origin
  let offset ← unsigned32? (i * sample : Nat)
  let first ← unsigned32? (origin + offset : Nat)
  let limit ← unsigned32? limit
  some ⟨first, min (cap32 (first + sample)) limit⟩

def centre? (sample : Nat) (s : Span) : Option Nat := do
  let last ← unsigned32? (s.stop - 1 : Int)
  some (min (cap32 (s.first + sample / 2)) last)

theorem block?_eq (ho : 0 ≤ origin) (hl : limit < 0x100000000)
    (hfirst : origin.toNat + i * sample < limit.toNat) :
    block? origin limit sample i = some (block origin.toNat limit.toNat sample i) := by
  have horigin : unsigned32? origin = some origin.toNat := unsigned32?_of_nonneg ho (by omega)
  have hoffset : unsigned32? (i * sample : Nat) = some (i * sample) :=
    unsigned32?_natCast (by omega)
  have hsum : unsigned32? (origin.toNat + i * sample : Nat) = some (origin.toNat + i * sample) :=
    unsigned32?_natCast (by omega)
  have hlimit : unsigned32? limit = some limit.toNat := unsigned32?_of_nonneg (by omega) hl
  unfold block?
  rw [horigin, Option.bind_eq_bind, Option.bind_some, hoffset, Option.bind_some, hsum,
    Option.bind_some, hlimit, Option.bind_some, block]

theorem centre?_eq {s : Span} (h : s.first < s.stop) (hs : s.stop ≤ 0x100000000) :
    centre? sample s = some (centre sample s) := by
  have hlast : ((s.stop - 1 : Nat) : Int) = (s.stop - 1 : Int) := by omega
  unfold centre?
  rw [← hlast, unsigned32?_natCast (by omega), Option.bind_eq_bind, Option.bind_some, centre]

end Span

namespace PixelFormat

def rowBytes? (f : PixelFormat) (width : Nat) : Option Nat :=
  unsigned64? (width * f.bytesPerPixel : Nat)

def imageBytes? (f : PixelFormat) (width height : Nat) : Option Nat := do
  let row ← f.rowBytes? width
  unsigned64? (row * height : Nat)

theorem imageBytes?_eq (f : PixelFormat) {width height : Nat} (hw : width < 0x80000000)
    (hh : height < 0x80000000) :
    f.imageBytes? width height = some (f.imageBytes width height) ∧
      f.imageBytes width height < 0x10000000000000000 := by
  have hrow : width * f.bytesPerPixel < 0x200000000 := by
    cases f <;> simp only [bytesPerPixel] <;> omega
  have hall : width * f.bytesPerPixel * height < 0x200000000 * 0x80000000 :=
    Nat.mul_lt_mul'' hrow hh
  unfold imageBytes? rowBytes?
  rw [unsigned64?_natCast (by omega), Option.bind_eq_bind, Option.bind_some,
    unsigned64?_natCast (by omega)]
  exact ⟨rfl, Nat.lt_of_lt_of_le hall (by decide)⟩

end PixelFormat

end ImageRegion
