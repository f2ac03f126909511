/-!
Machine words. Coordinates are words of 32 bits and lengths words of 64 bits. Plain sums and
products are those of a build with overflow checks: one that fits no word is a `Breach` and ends
the call. Only `cap32` and `cap64`, which stop at the greatest word, and `wrap64`, which wraps
around, give a result all the same.
-/

namespace ImageRegion.Word

inductive Overflow
  | sum
  | product
  deriving DecidableEq

def sum32 (a b : Nat) : Except Overflow Nat :=
  if a + b < 0x100000000 then .ok (a + b) else .error .sum

def product32 (a b : Nat) : Except Overflow Nat :=
  if a * b < 0x100000000 then .ok (a * b) else .error .product

def sum64 (a b : Nat) : Except Overflow Nat :=
  if a + b < 0x10000000000000000 then .ok (a + b) else .error .sum

def product64 (a b : Nat) : Except Overflow Nat :=
  if a * b < 0x10000000000000000 then .ok (a * b) else .error .product

def offset64 (base row rowBytes column columnBytes : Nat) : Except Overflow Nat := do
  let start ← sum64 base (← product64 row rowBytes)
  sum64 start (← product64 column columnBytes)

def wrap64 (n : Nat) : Nat := n % 0x10000000000000000

def cap32 (n : Nat) : Nat := min n 0xFFFFFFFF

def cap64 (n : Nat) : Nat := min n 0xFFFFFFFFFFFFFFFF

theorem sum32_eq_ok_iff {a b n : Nat} : sum32 a b = .ok n ↔ a + b = n ∧ n < 0x100000000 := by
  unfold sum32
  split <;> simp <;> omega

theorem product32_eq_ok_iff {a b n : Nat} :
    product32 a b = .ok n ↔ a * b = n ∧ n < 0x100000000 := by
  unfold product32
  split <;> simp <;> omega

theorem sum64_eq_ok_iff {a b n : Nat} :
    sum64 a b = .ok n ↔ a + b = n ∧ n < 0x10000000000000000 := by
  unfold sum64
  split <;> simp <;> omega

theorem product64_eq_ok_iff {a b n : Nat} :
    product64 a b = .ok n ↔ a * b = n ∧ n < 0x10000000000000000 := by
  unfold product64
  split <;> simp <;> omega

theorem offset64_eq_ok_iff {base row rowBytes column columnBytes n : Nat} :
    offset64 base row rowBytes column columnBytes = .ok n ↔
      base + row * rowBytes + column * columnBytes = n ∧ n < 0x10000000000000000 := by
  unfold offset64
  constructor
  · intro h
    cases hr : product64 row rowBytes with
    | error cause => simp [hr, bind, Except.bind] at h
    | ok r =>
      cases hs : sum64 base r with
      | error cause => simp [hr, hs, bind, Except.bind] at h
      | ok s =>
        cases hc : product64 column columnBytes with
        | error cause => simp [hr, hs, hc, bind, Except.bind] at h
        | ok c =>
          simp only [hr, hs, hc, bind, Except.bind] at h
          rw [product64_eq_ok_iff] at hr hc
          rw [sum64_eq_ok_iff] at hs h
          omega
  · rintro ⟨rfl, hn⟩
    rw [product64_eq_ok_iff.2 ⟨rfl, by omega⟩]
    simp only [bind, Except.bind]
    rw [sum64_eq_ok_iff.2 ⟨rfl, by omega⟩, product64_eq_ok_iff.2 ⟨rfl, by omega⟩]
    exact sum64_eq_ok_iff.2 ⟨rfl, hn⟩

theorem wrap64_of_lt {n : Nat} (h : n < 0x10000000000000000) : wrap64 n = n := Nat.mod_eq_of_lt h

theorem min_cap32 {n m : Nat} (h : m < 0x100000000) : min (cap32 n) m = min n m := by
  simp only [cap32]; omega

def ceilDiv (n d : Nat) : Nat := (n + (d - 1)) / d

theorem lt_ceilDiv_iff {n d i : Nat} (hd : 0 < d) : i < ceilDiv n d ↔ i * d < n := by
  rw [ceilDiv, Nat.lt_iff_add_one_le, Nat.le_div_iff_mul_le hd, Nat.succ_mul]
  omega

theorem row_end_le (w : Nat) {y h : Nat} (hy : y < h) : y * w + w ≤ w * h := by
  rw [← Nat.succ_mul, Nat.mul_comm]
  exact Nat.mul_le_mul_left _ hy

theorem ceilDiv_le {n d : Nat} (hd : 0 < d) : ceilDiv n d ≤ n := by
  apply Nat.le_of_not_lt
  intro h
  have hlt := (lt_ceilDiv_iff hd).mp h
  exact absurd hlt (Nat.not_lt_of_le (Nat.le_mul_of_pos_right n hd))

end ImageRegion.Word
