namespace ImageRegion

def rescale (maxval v : Nat) : UInt8 :=
  UInt8.ofNat ((min v maxval * 255 + maxval / 2) / maxval)

def narrow (v : Nat) : UInt8 := UInt8.ofNat ((v + 128) / 257)

theorem rescale_toNat {maxval : Nat} (v : Nat) (h : 0 < maxval) :
    (rescale maxval v).toNat = (min v maxval * 255 + maxval / 2) / maxval := by
  have : (min v maxval * 255 + maxval / 2) / maxval < 256 := by
    rw [Nat.div_lt_iff_lt_mul h]
    omega
  simp only [rescale, UInt8.toNat_ofNat']
  exact Nat.mod_eq_of_lt this

theorem rescale_255 {v : Nat} (h : v ≤ 255) : rescale 255 v = UInt8.ofNat v := by
  simp only [rescale, Nat.min_eq_left h]
  congr 1
  omega

def bigEndian16 (high low : UInt8) : Nat := high.toNat * 256 + low.toNat

end ImageRegion
