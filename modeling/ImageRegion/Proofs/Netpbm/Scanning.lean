import ImageRegion.Proofs.Netpbm.Grammar

namespace ImageRegion.Netpbm

/-- One separator in front of `after`. A comment reaches up to the end of its line, which is no part
of it. -/
inductive Separator (after : List UInt8) : List UInt8 → Prop
  | blank {b : UInt8} (hb : isBlank b = true) : Separator after [b]
  | comment {text : List UInt8} (htext : ∀ b ∈ text, endsLine b = false)
    (hstop : ∀ b ∈ after.head?, endsLine b = true) : Separator after (0x23 :: text)

inductive Separated (after : List UInt8) : List UInt8 → Prop
  | one {separator : List UInt8} (h : Separator after separator) : Separated after separator
  | more {separator rest : List UInt8} (h : Separator (rest ++ after) separator)
    (hrest : Separated after rest) : Separated after (separator ++ rest)

def Entry (after text : List UInt8) (n : Nat) : Prop :=
  ∃ separators digits, text = separators ++ digits ∧ Separated (digits ++ after) separators ∧
    Numeral digits n ∧ EndsNumber after ∧ n ≤ 0xFFFFFFFF

structure Header.Written (h : Header) (text : List UInt8) : Prop where
  entries : ∃ kind width height maxval blank,
    text = 0x50 :: kind :: (width ++ (height ++ (maxval ++ [blank]))) ∧
      (kind = 0x35 ∧ h.channels = 1 ∨ kind = 0x36 ∧ h.channels = 3) ∧
      Entry (height ++ (maxval ++ [blank])) width h.width ∧
      Entry (maxval ++ [blank]) height h.height ∧ Entry [blank] maxval h.maxval ∧
      isBlank blank = true
  width_pos : 1 ≤ h.width
  height_pos : 1 ≤ h.height
  maxval_pos : 1 ≤ h.maxval
  maxval_le : h.maxval ≤ 65535
  dataOffset : h.dataOffset = text.length

section Grammar

variable {after text rest : List UInt8} {b : UInt8} {n : Nat}

theorem isBlank_of_endsLine (h : endsLine b = true) : isBlank b = true := by
  rw [endsLine, Bool.or_eq_true, beq_iff_eq, beq_iff_eq] at h
  obtain rfl | rfl := h <;> rfl

theorem endsLine_of_isDigit (h : isDigit b = true) : endsLine b = false := by
  by_contra hend
  have hblank := isBlank_of_endsLine (Bool.not_eq_false _ ▸ hend)
  rw [isBlank_of_isDigit h] at hblank
  cases hblank

theorem Separated.ne_nil (h : Separated after text) : text ≠ [] := by
  cases h with
  | one h => cases h <;> exact List.cons_ne_nil _ _
  | more h _ => cases h <;> exact List.cons_ne_nil _ _

theorem Separators.of_blank_cons (h : Separators (b :: rest)) (hb : isBlank b = true) :
    Separators rest := by
  cases h with
  | blank _ hrest => exact hrest
  | comment _ _ _ => cases hb

theorem Separated.cons_blank (hb : isBlank b = true) (h : rest ≠ [] → Separated after rest) :
    Separated after (b :: rest) := by
  cases rest with
  | nil => exact .one (.blank hb)
  | cons c rest => exact .more (.blank hb) (h (List.cons_ne_nil _ _))

theorem Separated.separators (h : Separated after text)
    (hafter : ∃ b ∈ after.head?, endsLine b = false) : Separators text := by
  obtain ⟨b, hb, hend⟩ := hafter
  induction h with
  | one h =>
    cases h with
    | blank hblank => exact .blank hblank .none
    | comment _ hstop =>
      rw [hstop b hb] at hend
      cases hend
  | @more separator rest h hrest ih =>
    cases h with
    | blank hblank => exact .blank hblank ih
    | comment htext hstop =>
      -- the line end that stops the comment is the first of the separators behind it
      obtain ⟨stop, rest, rfl⟩ := List.exists_cons_of_ne_nil hrest.ne_nil
      have hstop := hstop stop rfl
      exact .comment htext hstop (ih.of_blank_cons (isBlank_of_endsLine hstop))

theorem Separators.separated (h : Separators text) (hne : text ≠ []) : Separated after text := by
  induction h with
  | none => exact absurd rfl hne
  | blank hb _ ih => exact .cons_blank hb ih
  | @comment text rest stop htext hstop _ ih =>
    have hsign : Separator (stop :: rest ++ after) (0x23 :: text) := by
      refine .comment htext fun b hb => ?_
      cases hb
      exact hstop
    exact .more hsign (.cons_blank (isBlank_of_endsLine hstop) ih)

theorem entry_iff : Entry after text n ↔ Field text n ∧ EndsNumber after ∧ n ≤ 0xFFFFFFFF := by
  constructor
  · rintro ⟨separators, digits, rfl, hseparated, hdigits, hafter, hn⟩
    obtain ⟨d, more, rfl⟩ := List.exists_cons_of_ne_nil hdigits.nonempty
    have hd := endsLine_of_isDigit (hdigits.digit d (List.mem_cons_self ..))
    exact ⟨⟨separators, _, rfl, hseparated.ne_nil, hseparated.separators ⟨d, rfl, hd⟩, hdigits⟩,
      hafter, hn⟩
  · rintro ⟨⟨separators, digits, rfl, hne, hseparators, hdigits⟩, hafter, hn⟩
    exact ⟨separators, digits, rfl, hseparators.separated hne, hdigits, hafter, hn⟩

namespace Header

variable {h h' : Header} {text' bytes : List UInt8}

theorem written_iff :
    h.Written text ↔ h.width < 0x100000000 ∧ h.height < 0x100000000 ∧ h.Spelled text := by
  constructor
  · intro hw
    obtain ⟨kind, width, height, maxval, blank, htext, hkind, hwidth, hheight, hmaxval, hblank⟩ :=
      hw.entries
    rw [entry_iff] at hwidth hheight hmaxval
    refine ⟨Nat.lt_succ_of_le hwidth.2.2, Nat.lt_succ_of_le hheight.2.2, ?_, hw.width_pos,
      hw.height_pos, hw.maxval_pos, hw.maxval_le, hw.dataOffset⟩
    exact ⟨kind, width, height, maxval, blank, htext, hkind, hwidth.1, hheight.1, hmaxval.1, hblank⟩
  · rintro ⟨hword, hword', hs⟩
    have hmax := hs.maxval_le
    obtain ⟨kind, width, height, maxval, blank, htext, hkind, hwidth, hheight, hmaxval, hblank⟩ :=
      hs.fields
    refine ⟨⟨kind, width, height, maxval, blank, htext, hkind, ?_, ?_, ?_, hblank⟩, hs.width_pos,
      hs.height_pos, hs.maxval_pos, hmax, hs.dataOffset⟩
    · exact entry_iff.mpr ⟨hwidth, hheight.endsNumber _, by omega⟩
    · exact entry_iff.mpr ⟨hheight, hmaxval.endsNumber _, by omega⟩
    · exact entry_iff.mpr ⟨hmaxval, endsNumber_of_isBlank hblank [], by omega⟩

theorem Written.parse (hw : h.Written text) (rest : List UInt8) : parse (text ++ rest) = .ok h := by
  obtain ⟨hwidth, hheight, hs⟩ := written_iff.mp hw
  exact parse_eq_ok_iff.mpr ⟨hwidth, hheight, text, rest, rfl, hs⟩

theorem parse_eq_ok_iff_written :
    parse bytes = .ok h ↔ ∃ text, text <+: bytes ∧ h.Written text := by
  constructor
  · intro hp
    obtain ⟨hwidth, hheight, text, rest, rfl, hs⟩ := parse_eq_ok_iff.mp hp
    exact ⟨text, List.prefix_append .., written_iff.mpr ⟨hwidth, hheight, hs⟩⟩
  · rintro ⟨text, ⟨rest, rfl⟩, hw⟩
    exact hw.parse rest

theorem Written.unique (hw : h.Written text) (hw' : h'.Written text') (htext : text <+: bytes)
    (htext' : text' <+: bytes) : h = h' ∧ text = text' := by
  have hp := parse_eq_ok_iff_written.mpr ⟨text, htext, hw⟩
  rw [parse_eq_ok_iff_written.mpr ⟨text', htext', hw'⟩] at hp
  cases hp
  refine ⟨rfl, (List.prefix_of_prefix_length_le htext htext' ?_).eq_of_length ?_⟩
  · rw [← hw.dataOffset, ← hw'.dataOffset]
  · rw [← hw.dataOffset, ← hw'.dataOffset]

theorem parse_append (hp : parse bytes = .ok h) (more : List UInt8) :
    parse (bytes ++ more) = .ok h := by
  obtain ⟨text, htext, hw⟩ := parse_eq_ok_iff_written.mp hp
  exact parse_eq_ok_iff_written.mpr ⟨text, htext.trans (List.prefix_append ..), hw⟩

theorem parse_take (hp : parse bytes = .ok h) {n : Nat} (hn : h.dataOffset ≤ n) :
    parse (bytes.take n) = .ok h := by
  obtain ⟨text, htext, hw⟩ := parse_eq_ok_iff_written.mp hp
  refine parse_eq_ok_iff_written.mpr ⟨text, List.prefix_take_iff.mpr ⟨htext, ?_⟩, hw⟩
  rwa [← hw.dataOffset]

theorem parse_take_eq_error (hp : parse bytes = .ok h) {n : Nat} (hn : n < h.dataOffset) :
    ∃ flaw, parse (bytes.take n) = .error flaw := by
  cases hcut : parse (bytes.take n) with
  | error flaw => exact ⟨flaw, rfl⟩
  | ok h' =>
    obtain ⟨text, htext, hw⟩ := parse_eq_ok_iff_written.mp hcut
    have hsame := parse_append hcut (bytes.drop n)
    rw [List.take_append_drop, hp] at hsame
    cases hsame
    have hlength := htext.length_le
    rw [List.length_take, ← hw.dataOffset] at hlength
    omega

end Header

end Grammar

inductive ScanFailure
  | flaw (flaw : Flaw)
  | outside (start stop : Nat)

section Positions

variable (buf : Array UInt8)

def slice (start stop : Nat) : Except ScanFailure (List UInt8) :=
  if start ≤ stop ∧ stop ≤ buf.size then .ok ((buf.toList.drop start).take (stop - start))
  else .error (.outside start stop)

def lineEnd (pos : Nat) : Nat :=
  if _h : pos < buf.size then
    if endsLine buf[pos] then pos else lineEnd (pos + 1)
  else pos
termination_by buf.size - pos

theorem le_lineEnd (pos : Nat) : pos ≤ lineEnd buf pos := by
  fun_induction lineEnd buf pos with
  | case1 pos hin hend => exact Nat.le_refl _
  | case2 pos hin hend ih => omega
  | case3 pos hin => exact Nat.le_refl _

theorem lt_lineEnd {pos : Nat} (hin : pos < buf.size) (hend : endsLine buf[pos] = false) :
    pos < lineEnd buf pos := by
  rw [lineEnd, dif_pos hin, if_neg (by rw [hend]; exact Bool.false_ne_true)]
  exact le_lineEnd buf (pos + 1)

/-- The first position that is behind all separators. A comment goes on for at least its number
sign, so each round gets ahead. -/
def separatorsEnd (pos : Nat) : Nat :=
  if hin : pos < buf.size then
    if hsign : buf[pos] = 0x23 then separatorsEnd (lineEnd buf pos)
    else if isBlank buf[pos] then separatorsEnd (pos + 1)
    else pos
  else pos
termination_by buf.size - pos
decreasing_by
  · have := lt_lineEnd buf hin (by rw [hsign]; rfl)
    omega
  · omega

def scanField (start : Nat) : Except ScanFailure (Nat × Nat) := do
  let pos := separatorsEnd buf start
  if pos = start then throw (.flaw .missingSeparator)
  let behind ← slice buf pos buf.size
  let count := (behind.takeWhile isDigit).length
  if count = 0 then throw (.flaw .truncatedHeader)
  let digits ← slice buf pos (pos + count)
  if 0x100000000 ≤ decimal digits then throw (.flaw .valueOutOfRange)
  return (decimal digits, pos + count)

def scanBlank (pos : Nat) : Except ScanFailure Nat :=
  if _h : pos < buf.size then
    if isBlank buf[pos] then .ok (pos + 1) else .error (.flaw .truncatedHeader)
  else .error (.flaw .truncatedHeader)

def scan : Except ScanFailure Header := do
  let (channels, _) ← (magic (buf.toList.take 2)).mapError .flaw
  let (width, pos) ← scanField buf 2
  let (height, pos) ← scanField buf pos
  let (maxval, pos) ← scanField buf pos
  let pos ← scanBlank buf pos
  (Header.validate ⟨channels, width, height, maxval, pos⟩).mapError .flaw

variable {buf}
variable {pos : Nat}

theorem drop_eq_cons (hin : pos < buf.size) :
    buf.toList.drop pos = buf[pos] :: buf.toList.drop (pos + 1) := by
  rw [List.drop_eq_getElem_cons (by simpa using hin), Array.getElem_toList]

theorem drop_of_not_lt (hin : ¬pos < buf.size) : buf.toList.drop pos = [] :=
  List.drop_eq_nil_of_le (by simpa using hin)

theorem slice_eq_ok {start stop : Nat} (h : start ≤ stop) (h' : stop ≤ buf.size) :
    slice buf start stop = .ok ((buf.toList.drop start).take (stop - start)) := if_pos ⟨h, h'⟩

theorem skipSeparators_lineEnd (buf : Array UInt8) (pos : Nat) :
    skipSeparators true (buf.toList.drop pos) =
      skipSeparators false (buf.toList.drop (lineEnd buf pos)) := by
  fun_induction lineEnd buf pos with
  | case1 pos hin hend =>
    have hsign : buf[pos] ≠ 0x23 := by
      intro hsign
      rw [hsign] at hend
      cases hend
    rw [drop_eq_cons hin, skipSeparators, hend, skipSeparators, if_neg hsign,
      if_pos (isBlank_of_endsLine hend)]
    rfl
  | case2 pos hin hend ih =>
    rw [drop_eq_cons hin, skipSeparators, (Bool.not_eq_true _).mp hend]
    exact ih
  | case3 pos hin =>
    rw [drop_of_not_lt hin]
    rfl

theorem skipSeparators_separatorsEnd (buf : Array UInt8) (pos : Nat) :
    skipSeparators false (buf.toList.drop pos) = buf.toList.drop (separatorsEnd buf pos) := by
  fun_induction separatorsEnd buf pos with
  | case1 pos hin hsign ih =>
    have hline := skipSeparators_lineEnd buf pos
    rw [drop_eq_cons hin, hsign, skipSeparators] at hline
    rw [drop_eq_cons hin, hsign, skipSeparators, if_pos rfl, ← ih]
    exact hline
  | case2 pos hin hsign hblank ih =>
    rw [drop_eq_cons hin, skipSeparators, if_neg hsign, if_pos hblank, ih]
  | case3 pos hin hsign hblank =>
    rw [drop_eq_cons hin, skipSeparators, if_neg hsign, if_neg hblank]
  | case4 pos hin =>
    rw [drop_of_not_lt hin]
    rfl

theorem lineEnd_le_size (h : pos ≤ buf.size) : lineEnd buf pos ≤ buf.size := by
  fun_induction lineEnd buf pos with
  | case1 pos hin hend => exact h
  | case2 pos hin hend ih => exact ih hin
  | case3 pos hin => exact h

theorem separatorsEnd_le_size (h : pos ≤ buf.size) : separatorsEnd buf pos ≤ buf.size := by
  fun_induction separatorsEnd buf pos with
  | case1 pos hin hsign ih => exact ih (lineEnd_le_size h)
  | case2 pos hin hsign hblank ih => exact ih hin
  | case3 pos hin hsign hblank => exact h
  | case4 pos hin => exact h

theorem scanField_eq (h : pos ≤ buf.size) :
    scanField buf pos = ((field (buf.toList.drop pos)).map fun r =>
      (r.1, buf.size - r.2.length)).mapError .flaw := by
  have hend := separatorsEnd_le_size h
  have hskip := skipSeparators_separatorsEnd buf pos
  have hstill : (buf.toList.drop (separatorsEnd buf pos)).length =
      (buf.toList.drop pos).length ↔ separatorsEnd buf pos = pos := by
    simp only [List.length_drop, Array.length_toList]
    omega
  have hbehind : (buf.toList.drop (separatorsEnd buf pos)).take
      (buf.size - separatorsEnd buf pos) = buf.toList.drop (separatorsEnd buf pos) :=
    List.take_of_length_le (by simp)
  unfold scanField field
  dsimp only
  rw [hskip, slice_eq_ok hend (Nat.le_refl _), hbehind]
  generalize hrest : buf.toList.drop (separatorsEnd buf pos) = rest at hstill ⊢
  have hlength : rest.length = buf.size - separatorsEnd buf pos := by
    rw [← hrest, List.length_drop, Array.length_toList]
  have hsplit := congrArg List.length (List.takeWhile_append_dropWhile (p := isDigit) (l := rest))
  rw [List.length_append] at hsplit
  have hdigits : slice buf (separatorsEnd buf pos)
      (separatorsEnd buf pos + (rest.takeWhile isDigit).length) =
      .ok (rest.takeWhile isDigit) := by
    rw [slice_eq_ok (Nat.le_add_right _ _) (by omega), Nat.add_sub_cancel_left, hrest]
    exact congrArg Except.ok (List.prefix_iff_eq_take.mp (List.takeWhile_prefix _)).symm
  by_cases hsame : separatorsEnd buf pos = pos
  · rw [if_pos hsame, if_pos (hstill.mpr hsame)]
    rfl
  · rw [if_neg hsame, if_neg fun he => hsame (hstill.mp he)]
    by_cases hnone : (rest.takeWhile isDigit).isEmpty = true
    · have hcount := List.length_eq_zero_iff.mpr (List.isEmpty_iff.mp hnone)
      simp only [hcount, hnone, bind, Except.bind, if_true]
      rfl
    · have hcount : (rest.takeWhile isDigit).length ≠ 0 := fun hcount =>
        hnone (List.isEmpty_iff.mpr (List.length_eq_zero_iff.mp hcount))
      simp only [hcount, hnone, hdigits, bind, Except.bind, if_false]
      by_cases hword : 0x100000000 ≤ decimal (rest.takeWhile isDigit)
      · simp only [if_pos hword]
        rfl
      · simp only [if_neg hword]
        refine congrArg (fun p => Except.ok (_, p)) ?_
        dsimp only
        omega

theorem scanField_bind {α : Type} (h : pos ≤ buf.size) {f : Nat × Nat → Except ScanFailure α}
    {g : Nat × List UInt8 → Except Flaw α}
    (hfg : ∀ n pos, pos ≤ buf.size → f (n, pos) = (g (n, buf.toList.drop pos)).mapError .flaw) :
    (scanField buf pos >>= f) = (field (buf.toList.drop pos) >>= g).mapError .flaw := by
  rw [scanField_eq h]
  cases hfield : field (buf.toList.drop pos) with
  | error flaw => rfl
  | ok r =>
    obtain ⟨n, rest⟩ := r
    obtain ⟨text, hsplit, _⟩ := field_eq_ok hfield
    have hsuffix : rest <:+ buf.toList :=
      List.IsSuffix.trans ⟨text, hsplit.symm⟩ (List.drop_suffix ..)
    have hrest : rest = buf.toList.drop (buf.size - rest.length) := by
      rw [← Array.length_toList]
      exact List.suffix_iff_eq_drop.mp hsuffix
    refine (hfg n _ (Nat.sub_le ..)).trans ?_
    rw [← hrest]
    rfl

theorem scanBlank_eq (pos : Nat) :
    scanBlank buf pos =
      ((finalBlank (buf.toList.drop pos)).map fun _ => pos + 1).mapError .flaw := by
  unfold scanBlank
  by_cases hin : pos < buf.size
  · rw [dif_pos hin, drop_eq_cons hin, finalBlank]
    split <;> rfl
  · rw [dif_neg hin, drop_of_not_lt hin]
    rfl

theorem magic_take (bytes : List UInt8) :
    magic bytes = (magic (bytes.take 2)).map fun r => (r.1, bytes.drop 2) := by
  match bytes with
  | [] => rfl
  | [_] => rfl
  | p :: kind :: rest =>
    simp only [magic, List.take_succ_cons, List.take_zero, List.drop_succ_cons, List.drop_zero]
    split
    · rfl
    · split
      · rfl
      · split
        · rfl
        · split <;> rfl

theorem scan_eq (buf : Array UInt8) : scan buf = (Header.parse buf.toList).mapError .flaw := by
  unfold scan Header.parse
  rw [magic_take buf.toList]
  cases hmagic : magic (buf.toList.take 2) with
  | error flaw => rfl
  | ok r =>
    obtain ⟨kind, hkind, -⟩ := magic_eq_ok_iff.mp hmagic
    have hsize : 2 ≤ buf.size := by
      have hlength := congrArg List.length hkind
      simp only [List.length_take, Array.length_toList, List.length_cons] at hlength
      omega
    refine scanField_bind hsize fun width pos hpos => scanField_bind hpos fun height pos hpos =>
      scanField_bind hpos fun maxval pos hpos => ?_
    dsimp only
    rw [scanBlank_eq]
    cases hblank : finalBlank (buf.toList.drop pos) with
    | error flaw => rfl
    | ok rest =>
      obtain ⟨blank, hdrop, -⟩ := finalBlank_eq_ok_iff.mp hblank
      have hlength := congrArg List.length hdrop
      rw [List.length_drop, List.length_cons, Array.length_toList] at hlength
      have hoffset : buf.toList.length - rest.length = pos + 1 := by
        rw [Array.length_toList]
        omega
      simp only [bind, Except.bind, Except.map, Except.mapError, hoffset]

end Positions

/-- A header is read from bytes just if it is written at their start. It is written there in one way
only, bytes behind it change nothing, and without one of its own bytes there is no header. A buffer
is scanned to an end without an access outside of it. -/
theorem Header.parse_reads_the_grammar (bytes : List UInt8) :
    (∀ h, parse bytes = .ok h ↔ ∃ text, text <+: bytes ∧ h.Written text) ∧
    (∀ (h h' : Header) (text text' : List UInt8), text <+: bytes → text' <+: bytes →
      h.Written text → h'.Written text' → h = h' ∧ text = text') ∧
    scan bytes.toArray = (parse bytes).mapError .flaw ∧
    ∀ h, parse bytes = .ok h →
      (∀ more, parse (bytes ++ more) = .ok h) ∧
      ∀ n, (h.dataOffset ≤ n → parse (bytes.take n) = .ok h) ∧
        (n < h.dataOffset → ∃ flaw, parse (bytes.take n) = .error flaw) := by
  refine ⟨fun h => parse_eq_ok_iff_written, fun h h' text text' htext htext' hw hw' =>
    hw.unique hw' htext htext', scan_eq bytes.toArray, fun h hp => ⟨parse_append hp, fun n => ?_⟩⟩
  exact ⟨parse_take hp, parse_take_eq_error hp⟩

theorem Header.parse_reads_the_grammar_of_dot :
    let h : Header := ⟨1, 1, 1, 1, 10⟩
    let bytes : List UInt8 := [0x50, 0x35, 0x23, 0x0A, 0x31, 0x20, 0x31, 0x20, 0x31, 0x0A]
    (∃ text, text <+: bytes ∧ h.Written text) ∧ parse (bytes ++ [0x31]) = .ok h ∧
      ∃ flaw, parse (bytes.take 9) = .error flaw := by
  intro h bytes
  obtain ⟨hgrammar, _, _, hstable⟩ := parse_reads_the_grammar bytes
  have hp : parse bytes = .ok h := by decide
  obtain ⟨hmore, hcut⟩ := hstable h hp
  exact ⟨(hgrammar h).mp hp, hmore [0x31], (hcut 9).2 (by decide)⟩

end ImageRegion.Netpbm
