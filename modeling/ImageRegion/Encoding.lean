namespace ImageRegion

inductive ByteClass
  | exactly (b : UInt8)
  | either (a b : UInt8)
  | between (low high : UInt8)
  | any
  deriving DecidableEq

namespace ByteClass

def accepts : ByteClass → UInt8 → Bool
  | .exactly a, b => b == a
  | .either a₁ a₂, b => b == a₁ || b == a₂
  | .between low high, b => low ≤ b && b ≤ high
  | .any, _ => true

def startsWith : List ByteClass → List UInt8 → Bool
  | [], _ => true
  | _ :: _, [] => false
  | c :: cs, b :: bs => c.accepts b && startsWith cs bs

theorem startsWith_append {cs : List ByteClass} {xs : List UInt8} (ys : List UInt8)
    (h : startsWith cs xs = true) : startsWith cs (xs ++ ys) = true := by
  induction cs generalizing xs with
  | nil => rfl
  | cons c cs ih =>
    cases xs with
    | nil => simp [startsWith] at h
    | cons x xs =>
      simp only [startsWith, List.cons_append, Bool.and_eq_true] at h ⊢
      exact ⟨h.1, ih h.2⟩

theorem startsWith_take (cs : List ByteClass) (xs : List UInt8) {n : Nat} (h : cs.length ≤ n) :
    startsWith cs (xs.take n) = startsWith cs xs := by
  induction cs generalizing xs n with
  | nil => rfl
  | cons c cs ih =>
    cases xs with
    | nil => simp
    | cons x xs =>
      obtain ⟨n, rfl⟩ : ∃ m, n = m + 1 := ⟨n - 1, by simp at h; omega⟩
      simp [startsWith, ih xs (Nat.le_of_succ_le_succ h)]

end ByteClass

inductive Encoding
  | jpeg
  | png
  | gif
  | webp
  | bmp
  | pnm
  | farbfeld
  deriving DecidableEq

namespace Encoding

def magicLength : Nat := 12

def magic : Encoding → List ByteClass
  | .jpeg => [.exactly 0xFF, .exactly 0xD8, .exactly 0xFF]
  | .png => [0x89, 0x50, 0x4E, 0x47, 0x0D, 0x0A, 0x1A, 0x0A].map .exactly
  | .gif => [0x47, 0x49, 0x46, 0x38].map .exactly ++ [.either 0x37 0x39, .exactly 0x61]
  | .webp => [0x52, 0x49, 0x46, 0x46].map .exactly ++ List.replicate 4 .any ++
      [0x57, 0x45, 0x42, 0x50].map .exactly
  | .bmp => [0x42, 0x4D].map .exactly ++ List.replicate 4 .any
  | .pnm => [.exactly 0x50, .between 0x31 0x37]
  | .farbfeld => [0x66, 0x61, 0x72, 0x62, 0x66, 0x65, 0x6C, 0x64].map .exactly

def all : List Encoding := [.jpeg, .png, .gif, .webp, .farbfeld, .bmp, .pnm]

def detect? (bytes : List UInt8) : Option Encoding :=
  all.find? fun e => ByteClass.startsWith e.magic bytes

theorem magic_length_le (e : Encoding) : e.magic.length ≤ magicLength := by
  cases e <;> decide

def name : Encoding → String
  | .jpeg => "JPEG"
  | .png => "PNG"
  | .gif => "GIF"
  | .webp => "WebP"
  | .bmp => "BMP"
  | .pnm => "PNM"
  | .farbfeld => "farbfeld"

def tag : Encoding → String
  | .jpeg => "Jpeg"
  | .png => "Png"
  | .gif => "Gif"
  | .webp => "WebP"
  | .bmp => "Bmp"
  | .pnm => "Pnm"
  | .farbfeld => "Farbfeld"

def mimeType : Encoding → String
  | .jpeg => "image/jpeg"
  | .png => "image/png"
  | .gif => "image/gif"
  | .webp => "image/webp"
  | .bmp => "image/bmp"
  | .pnm => "image/x-portable-anymap"
  | .farbfeld => "image/x-farbfeld"

def hasRandomAccess : Encoding → Bool
  | .pnm | .farbfeld => true
  | _ => false

end Encoding

end ImageRegion
