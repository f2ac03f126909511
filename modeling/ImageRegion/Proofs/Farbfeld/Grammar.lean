import Mathlib.Data.Nat.Digits.Defs
import ImageRegion.Farbfeld

namespace ImageRegion

theorem ByteClass.startsWith_exactly_iff {magic bytes : List UInt8} :
    startsWith (magic.map .exactly) bytes = true ↔ bytes.take magic.length = magic := by
  induction magic generalizing bytes with
  | nil => simp [startsWith]
  | cons m magic ih =>
    cases bytes with
    | nil => simp [startsWith]
    | cons b bytes => simp [startsWith, accepts, ih]

def bigEndian (bytes : List UInt8) : Nat := Nat.ofDigits 256 (bytes.reverse.map fun b => b.toNat)

namespace Farbfeld

def name : List UInt8 := [0x66, 0x61, 0x72, 0x62, 0x66, 0x65, 0x6C, 0x64]

theorem bigEndian32_eq (a b c d : UInt8) : bigEndian32 a b c d = bigEndian [a, b, c, d] := by
  simp only [bigEndian32, bigEndian16, bigEndian, List.reverse_cons, List.reverse_nil,
    List.nil_append, List.cons_append, List.map_cons, List.map_nil, Nat.ofDigits_cons,
    Nat.ofDigits_nil]
  omega

namespace Header

structure Spelled (h : Header) (bytes : List UInt8) : Prop where
  magic : bytes.take 8 = name
  width : h.width = bigEndian ((bytes.drop 8).take 4)
  height : h.height = bigEndian ((bytes.drop 12).take 4)
  width_pos : 0 < h.width
  height_pos : 0 < h.height

variable {h : Header} {bytes : List UInt8}

theorem spelled_take_iff : h.Spelled (bytes.take headerBytes) ↔ h.Spelled bytes := by
  have hmagic : (bytes.take headerBytes).take 8 = bytes.take 8 := by
    rw [List.take_take]
    rfl
  have hwidth : ((bytes.take headerBytes).drop 8).take 4 = (bytes.drop 8).take 4 := by
    rw [List.drop_take, List.take_take]
    rfl
  have hheight : ((bytes.take headerBytes).drop 12).take 4 = (bytes.drop 12).take 4 := by
    rw [List.drop_take, List.take_take]
    rfl
  constructor
  · intro hs
    exact ⟨hmagic ▸ hs.magic, hwidth ▸ hs.width, hheight ▸ hs.height, hs.width_pos, hs.height_pos⟩
  · intro hs
    exact ⟨hmagic.trans hs.magic, hwidth ▸ hs.width, hheight ▸ hs.height, hs.width_pos,
      hs.height_pos⟩

theorem spelled_of_parse (hp : parse bytes = .ok h) :
    bytes.length = headerBytes ∧ h.Spelled bytes := by
  unfold parse at hp
  split at hp
  next hmagic =>
    have hname : bytes.take 8 = name := ByteClass.startsWith_exactly_iff.mp hmagic
    split at hp
    next a b c d e f g i hrest =>
      dsimp only at hp
      split at hp
      · cases hp
      next hzero =>
        cases hp
        obtain rfl : bytes = name ++ [a, b, c, d, e, f, g, i] := by
          rw [← hname, ← hrest, List.take_append_drop]
        refine ⟨rfl, hname, bigEndian32_eq a b c d, bigEndian32_eq e f g i, ?_, ?_⟩
        · exact Nat.pos_of_ne_zero fun hz => hzero (.inl hz)
        · exact Nat.pos_of_ne_zero fun hz => hzero (.inr hz)
    · cases hp
  · cases hp

theorem parse_eq_ok_iff : parse bytes = .ok h ↔ bytes.length = headerBytes ∧ h.Spelled bytes := by
  constructor
  · exact spelled_of_parse
  · rintro ⟨hlength, hs⟩
    have hmagic : ByteClass.startsWith Encoding.farbfeld.magic bytes = true :=
      ByteClass.startsWith_exactly_iff.mpr hs.magic
    have hbehind : (bytes.drop 8).length = 8 := by
      rw [List.length_drop, hlength]
      rfl
    unfold parse
    rw [if_pos hmagic]
    match hrest : bytes.drop 8, hbehind with
    | [a, b, c, d, e, f, g, i], _ =>
      have hwidth : bigEndian32 a b c d = h.width := by
        rw [hs.width, hrest, bigEndian32_eq]
        rfl
      have hheight : bigEndian32 e f g i = h.height := by
        rw [hs.height, ← List.drop_drop (i := 4) (j := 8), hrest, bigEndian32_eq]
        rfl
      have hpos := hs.width_pos
      have hpos' := hs.height_pos
      dsimp only
      rw [hwidth, hheight, if_neg (by omega)]

end Header

end Farbfeld

end ImageRegion
