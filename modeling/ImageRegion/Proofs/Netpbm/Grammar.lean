import Mathlib.Data.List.TakeWhile
import Mathlib.Data.Nat.Digits.Defs
import ImageRegion.Proofs.Image.Opening

namespace ImageRegion.Netpbm

inductive Separators : List UInt8 → Prop
  | none : Separators []
  | blank {b : UInt8} {rest : List UInt8} (hb : isBlank b = true) (hrest : Separators rest) :
    Separators (b :: rest)
  | comment {text rest : List UInt8} {stop : UInt8} (htext : ∀ b ∈ text, endsLine b = false)
    (hstop : endsLine stop = true) (hrest : Separators rest) :
    Separators (0x23 :: (text ++ stop :: rest))

structure Numeral (digits : List UInt8) (n : Nat) : Prop where
  nonempty : digits ≠ []
  digit : ∀ d ∈ digits, isDigit d = true
  value : Nat.ofDigits 10 (digits.reverse.map fun d => d.toNat - 0x30) = n

def Field (text : List UInt8) (n : Nat) : Prop :=
  ∃ separators digits, text = separators ++ digits ∧ separators ≠ [] ∧ Separators separators ∧
    Numeral digits n

def EndsNumber (rest : List UInt8) : Prop := ∀ b ∈ rest.head?, isDigit b = false

structure Header.Spelled (h : Header) (text : List UInt8) : Prop where
  fields : ∃ kind width height maxval blank,
    text = 0x50 :: kind :: (width ++ (height ++ (maxval ++ [blank]))) ∧
      (kind = 0x35 ∧ h.channels = 1 ∨ kind = 0x36 ∧ h.channels = 3) ∧
      Field width h.width ∧ Field height h.height ∧ Field maxval h.maxval ∧ isBlank blank = true
  width_pos : 0 < h.width
  height_pos : 0 < h.height
  maxval_pos : 0 < h.maxval
  maxval_le : h.maxval ≤ 65535
  dataOffset : h.dataOffset = text.length

variable {bytes rest text separators digits : List UInt8} {n : Nat}

theorem skipSeparators_comment {stop : UInt8} (htext : ∀ b ∈ text, endsLine b = false)
    (hstop : endsLine stop = true) :
    skipSeparators true (text ++ stop :: rest) = skipSeparators false rest := by
  induction text with
  | nil => simp [skipSeparators, hstop]
  | cons b text ih =>
    rw [List.cons_append, skipSeparators, htext b (List.mem_cons_self ..)]
    exact ih fun b hb => htext b (List.mem_cons_of_mem _ hb)

theorem Separators.skip (h : Separators separators) (rest : List UInt8) :
    skipSeparators false (separators ++ rest) = skipSeparators false rest := by
  induction h with
  | none => rfl
  | blank hb _ ih =>
    rw [List.cons_append, skipSeparators, if_pos hb, ih]
    rw [if_neg]
    rintro rfl
    cases hb
  | comment htext hstop _ ih =>
    rw [List.cons_append, List.append_assoc, List.cons_append, skipSeparators, if_pos rfl,
      skipSeparators_comment htext hstop, ih]

theorem separators_of_skip {inComment : Bool} {b : UInt8}
    (h : skipSeparators inComment bytes = b :: rest) :
    ∃ skipped, bytes = skipped ++ b :: rest ∧
      Separators (if inComment then 0x23 :: skipped else skipped) := by
  induction bytes generalizing inComment with
  | nil => cases inComment <;> cases h
  | cons a bytes ih =>
    cases inComment with
    | true =>
      rw [skipSeparators] at h
      obtain ⟨skipped, rfl, hskipped⟩ := ih h
      refine ⟨a :: skipped, rfl, ?_⟩
      cases hend : endsLine a with
      | true =>
        rw [hend] at hskipped
        exact .comment (List.forall_mem_nil _) hend hskipped
      | false =>
        rw [hend] at hskipped
        cases hskipped with
        | blank hb _ => cases hb
        | comment htext hstop hrest =>
          rw [← List.cons_append]
          exact .comment (List.forall_mem_cons.mpr ⟨hend, htext⟩) hstop hrest
    | false =>
      rw [skipSeparators] at h
      split at h
      next ha =>
        obtain ⟨skipped, rfl, hskipped⟩ := ih h
        exact ⟨a :: skipped, rfl, ha ▸ hskipped⟩
      · split at h
        next ha =>
          obtain ⟨skipped, rfl, hskipped⟩ := ih h
          exact ⟨a :: skipped, rfl, .blank ha hskipped⟩
        · exact ⟨[], h, .none⟩

theorem isBlank_of_isDigit {b : UInt8} (h : isDigit b = true) : isBlank b = false := by
  simp only [isDigit, Bool.and_eq_true, decide_eq_true_eq, UInt8.le_iff_toNat_le] at h
  simp only [isBlank, Bool.or_eq_false_iff, beq_eq_false_iff_ne, ne_eq, ← UInt8.toNat_inj]
  simp only [UInt8.reduceToNat] at h ⊢
  omega

theorem skipSeparators_of_digit {d : UInt8} (h : isDigit d = true) :
    skipSeparators false (d :: rest) = d :: rest := by
  have hsign : d ≠ 0x23 := by
    rintro rfl
    cases h
  rw [skipSeparators, if_neg hsign, isBlank_of_isDigit h]
  rfl

theorem endsNumber_of_isBlank {blank : UInt8} (h : isBlank blank = true) (rest : List UInt8) :
    EndsNumber (blank :: rest) := by
  intro b hb
  cases hb
  by_contra hdigit
  rw [isBlank_of_isDigit (Bool.not_eq_false _ ▸ hdigit)] at h
  cases h

theorem Separators.endsNumber (h : Separators separators) (hne : separators ≠ [])
    (rest : List UInt8) : EndsNumber (separators ++ rest) := by
  cases h with
  | none => exact absurd rfl hne
  | blank hblank _ => exact endsNumber_of_isBlank hblank _
  | comment _ _ _ =>
    intro b hb
    cases hb
    rfl

theorem decimal_eq_ofDigits (digits : List UInt8) :
    decimal digits = Nat.ofDigits 10 (digits.reverse.map fun d => d.toNat - 0x30) := by
  rw [decimal, ← List.foldr_reverse, Nat.ofDigits_eq_foldr, List.foldr_map]
  congr 1
  funext d n
  rw [Nat.cast_id, Nat.add_comm, Nat.mul_comm]

theorem Numeral.takeWhile (h : Numeral digits n) (hrest : EndsNumber rest) :
    (digits ++ rest).takeWhile isDigit = digits ∧ (digits ++ rest).dropWhile isDigit = rest := by
  rw [List.takeWhile_append_of_pos h.digit, List.dropWhile_append_of_pos h.digit]
  cases rest with
  | nil => exact ⟨List.append_nil _, rfl⟩
  | cons b rest =>
    have hb := hrest b rfl
    rw [List.takeWhile_cons_of_neg (by rw [hb]; exact Bool.false_ne_true),
      List.dropWhile_cons_of_neg (by rw [hb]; exact Bool.false_ne_true)]
    exact ⟨List.append_nil _, rfl⟩

theorem Field.endsNumber (h : Field text n) (rest : List UInt8) : EndsNumber (text ++ rest) := by
  obtain ⟨separators, digits, rfl, hne, hseparators, _⟩ := h
  rw [List.append_assoc]
  exact hseparators.endsNumber hne _

theorem Field.read (h : Field text n) (hrest : EndsNumber rest) :
    field (text ++ rest) =
      if 0x100000000 ≤ n then .error .valueOutOfRange else .ok (n, rest) := by
  obtain ⟨separators, digits, rfl, hne, hseparators, hdigits⟩ := h
  obtain ⟨htake, hdrop⟩ := hdigits.takeWhile hrest
  obtain ⟨d, more, rfl⟩ := List.exists_cons_of_ne_nil hdigits.nonempty
  have hskip : skipSeparators false ((separators ++ d :: more) ++ rest) = (d :: more) ++ rest := by
    rw [List.append_assoc, hseparators.skip]
    exact skipSeparators_of_digit (hdigits.digit d (List.mem_cons_self ..))
  have hlength : ((d :: more) ++ rest).length ≠ ((separators ++ d :: more) ++ rest).length := by
    have := List.length_pos_iff.mpr hne
    simp only [List.length_append]
    omega
  have hvalue : decimal (d :: more) = n := (decimal_eq_ofDigits _).trans hdigits.value
  unfold field
  simp only [hskip, htake, hdrop, if_neg hlength, List.isEmpty_cons, hvalue]
  rfl

theorem field_eq_ok (h : field bytes = .ok (n, rest)) :
    ∃ text, bytes = text ++ rest ∧ Field text n ∧ n < 0x100000000 := by
  simp only [field] at h
  split at h
  · cases h
  next hlength =>
    split at h
    · cases h
    next hdigits =>
      split at h
      · cases h
      next hword =>
        cases h
        cases hskip : skipSeparators false bytes with
        | nil => exact absurd (by rw [hskip]; rfl) hdigits
        | cons d more =>
          obtain ⟨skipped, rfl, hskipped⟩ := separators_of_skip hskip
          rw [hskip] at hlength hdigits hword
          refine ⟨skipped ++ (d :: more).takeWhile isDigit, ?_, ?_, Nat.lt_of_not_le hword⟩
          · rw [List.append_assoc, List.takeWhile_append_dropWhile]
          · refine ⟨skipped, _, rfl, ?_, hskipped, ?_⟩
            · rintro rfl
              exact hlength rfl
            · exact ⟨fun hnil => hdigits (by rw [hnil]; rfl),
                fun d hd => List.mem_takeWhile_imp hd, (decimal_eq_ofDigits _).symm⟩

theorem magic_eq_ok_iff {channels : Nat} : magic bytes = .ok (channels, rest) ↔
    ∃ kind, bytes = 0x50 :: kind :: rest ∧
      (kind = 0x35 ∧ channels = 1 ∨ kind = 0x36 ∧ channels = 3) := by
  constructor
  · intro h
    unfold magic at h
    split at h
    · split at h
      · cases h
      next hp =>
        obtain rfl := Decidable.not_not.mp hp
        split at h
        next hkind =>
          cases h
          exact ⟨_, rfl, .inl ⟨hkind, rfl⟩⟩
        · split at h
          next hkind =>
            cases h
            exact ⟨_, rfl, .inr ⟨hkind, rfl⟩⟩
          · split at h <;> cases h
    · cases h
  · rintro ⟨kind, rfl, ⟨rfl, rfl⟩ | ⟨rfl, rfl⟩⟩ <;> rfl

theorem finalBlank_eq_ok_iff : finalBlank bytes = .ok rest ↔
    ∃ blank, bytes = blank :: rest ∧ isBlank blank = true := by
  constructor
  · intro h
    unfold finalBlank at h
    split at h
    · split at h
      next hblank =>
        cases h
        exact ⟨_, rfl, hblank⟩
      · cases h
    · cases h
  · rintro ⟨blank, rfl, hblank⟩
    exact if_pos hblank

namespace Header

variable {h h' : Header}

theorem validate_eq_ok_iff : h.validate = .ok h' ↔
    h = h' ∧ 0 < h.width ∧ 0 < h.height ∧ 0 < h.maxval ∧ h.maxval ≤ 65535 := by
  unfold validate
  split
  · constructor
    · intro h
      cases h
    · omega
  · split
    · constructor
      · intro h
        cases h
      · omega
    · rw [Except.ok.injEq]
      exact ⟨fun he => ⟨he, by omega⟩, fun he => he.1⟩

theorem Spelled.parse (hs : h.Spelled text) (rest : List UInt8) :
    parse (text ++ rest) = if 0x100000000 ≤ h.width ∨ 0x100000000 ≤ h.height
      then .error .valueOutOfRange else .ok h := by
  have hoffset := hs.dataOffset
  obtain ⟨kind, width, height, maxval, blank, rfl, hkind, hwidth, hheight, hmaxval, hblank⟩ :=
    hs.fields
  let behind := width ++ (height ++ (maxval ++ (blank :: rest)))
  have hmagic : magic (0x50 :: kind :: behind) = .ok (h.channels, behind) :=
    magic_eq_ok_iff.mpr ⟨kind, rfl, hkind⟩
  have hfirst := hwidth.read (hheight.endsNumber (maxval ++ (blank :: rest)))
  have hsecond := hheight.read (hmaxval.endsNumber (blank :: rest))
  have hthird := hmaxval.read (endsNumber_of_isBlank hblank rest)
  have hfinal : finalBlank (blank :: rest) = .ok rest := if_pos hblank
  have hmax := hs.maxval_le
  have hall : (0x50 :: kind :: (width ++ (height ++ (maxval ++ [blank])))) ++ rest =
      0x50 :: kind :: behind := by
    simp only [behind, List.cons_append, List.append_assoc, List.nil_append]
  rw [hall, Header.parse, hmagic]
  simp only [bind, Except.bind]
  rw [show field behind = _ from hfirst]
  by_cases hw : 0x100000000 ≤ h.width
  · rw [if_pos hw, if_pos (.inl hw)]
  · rw [if_neg hw]
    simp only
    rw [hsecond]
    by_cases hh : 0x100000000 ≤ h.height
    · rw [if_pos hh, if_pos (.inr hh)]
    · rw [if_neg hh, if_neg (not_or.mpr ⟨hw, hh⟩)]
      simp only
      rw [hthird, if_neg (by omega)]
      simp only
      rw [hfinal]
      refine validate_eq_ok_iff.mpr ⟨?_, hs.width_pos, hs.height_pos, hs.maxval_pos, hmax⟩
      cases h
      dsimp only at hoffset ⊢
      rw [hoffset]
      congr 1
      simp only [behind, List.length_cons, List.length_append, List.length_nil]
      omega

theorem spelled_of_parse (hp : parse bytes = .ok h) :
    h.width < 0x100000000 ∧ h.height < 0x100000000 ∧
      ∃ text rest, bytes = text ++ rest ∧ h.Spelled text := by
  obtain ⟨⟨channels, rest⟩, hm, hp⟩ := bind_eq_ok hp
  obtain ⟨⟨width, rest⟩, hw, hp⟩ := bind_eq_ok hp
  obtain ⟨⟨height, rest⟩, hh, hp⟩ := bind_eq_ok hp
  obtain ⟨⟨maxval, rest⟩, hv, hp⟩ := bind_eq_ok hp
  obtain ⟨rest, hb, hp⟩ := bind_eq_ok hp
  obtain ⟨rfl, hwidth, hheight, hmaxval, hmax⟩ := validate_eq_ok_iff.mp hp
  obtain ⟨kind, rfl, hkind⟩ := magic_eq_ok_iff.mp hm
  obtain ⟨first, rfl, hfirst, hwword⟩ := field_eq_ok hw
  obtain ⟨second, rfl, hsecond, hhword⟩ := field_eq_ok hh
  obtain ⟨third, rfl, hthird, _⟩ := field_eq_ok hv
  obtain ⟨blank, rfl, hblank⟩ := finalBlank_eq_ok_iff.mp hb
  refine ⟨hwword, hhword, 0x50 :: kind :: (first ++ (second ++ (third ++ [blank]))), rest, ?_, ?_⟩
  · simp only [List.cons_append, List.append_assoc, List.nil_append]
  · constructor
    · exact ⟨kind, _, _, _, blank, rfl, hkind, hfirst, hsecond, hthird, hblank⟩
    · exact hwidth
    · exact hheight
    · exact hmaxval
    · exact hmax
    · simp only [List.length_cons, List.length_append, List.length_nil]
      omega

theorem parse_eq_ok_iff : parse bytes = .ok h ↔ h.width < 0x100000000 ∧ h.height < 0x100000000 ∧
    ∃ text rest, bytes = text ++ rest ∧ h.Spelled text := by
  constructor
  · exact spelled_of_parse
  · rintro ⟨hwidth, hheight, text, rest, rfl, hs⟩
    rw [hs.parse, if_neg (by omega)]

end Header

end ImageRegion.Netpbm
