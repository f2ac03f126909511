import ImageRegion.Proofs.Image.Files
import ImageRegion.Proofs.Image.Layout

namespace ImageRegion

open ByteClass (startsWith)

namespace Stream

variable {bytes : Array UInt8} {offset count : Nat}

theorem InMemory.answers_eq {s : Stream} (hs : s.InMemory) (hstop : offset + count ≤ s.length)
    (hlength : s.length < 0x10000000000000000) :
    s.answers offset count = .ok (s.content.slice offset count) :=
  congrArg Prod.fst (hs.readExactAt_eq hstop hlength)

theorem answers_append (more : Array UInt8) (h : offset + count ≤ (ofBytes bytes).length)
    (hlength : (ofBytes (bytes ++ more)).length < 0x10000000000000000) :
    (ofBytes (bytes ++ more)).answers offset count = (ofBytes bytes).answers offset count := by
  have hmore : (ofBytes bytes).length ≤ (ofBytes (bytes ++ more)).length := by
    show bytes.size ≤ (bytes ++ more).size
    rw [Array.size_append]
    omega
  have hslice : (Content.ofBytes (bytes ++ more)).slice offset count =
      (Content.ofBytes bytes).slice offset count := by
    unfold Content.slice
    congr 1
    funext i
    have hi : offset + i < bytes.size := Nat.lt_of_lt_of_le (Nat.add_lt_add_left i.isLt _) h
    show (bytes ++ more).getD (offset + i) 0 = bytes.getD (offset + i) 0
    rw [Array.getD_eq_getD_getElem?, Array.getD_eq_getD_getElem?, Array.getElem?_append_left hi]
  rw [(inMemory_ofBytes _).answers_eq (Nat.le_trans h hmore) hlength,
    (inMemory_ofBytes bytes).answers_eq h (Nat.lt_of_le_of_lt hmore hlength)]
  exact congrArg Except.ok hslice

end Stream

namespace Index

def dataEnd : Index → Nat
  | .pnm h => h.width * h.pixelBytes * h.height + h.dataOffset
  | .farbfeld h => h.width * Farbfeld.pixelBytes * h.height + Farbfeld.headerBytes
  | .tiled _ => 0

theorem rowOf_congr_data {index : Index} {answers answers' : Answers} {x count y : Nat}
    (h : ∀ offset n, offset + n ≤ index.dataEnd → answers offset n = answers' offset n)
    (hx : x + count ≤ index.width) (hy : y < index.height) :
    index.rowOf answers x count y = index.rowOf answers' x count y := by
  apply rowOf_congr
  intro l hl
  apply h
  rw [RowLayout.start_add]
  cases index with
  | pnm header =>
    cases hl
    exact RowLayout.start_le hx hy
  | farbfeld header =>
    cases hl
    exact RowLayout.start_le hx hy
  | tiled m => cases hl

end Index

namespace Viewer

variable {bytes more : Array UInt8} {config : Config} {v : Viewer}

section

variable (hlength : bytes.size < Word.greatest) (hlimits : config.limits = .none)

include hlength hlimits

theorem magic_of_openStream (h : (openStream (.ofBytes bytes) config).1 = .ok v) :
    startsWith v.encoding.magic bytes.toList = true := by
  rw [openStream_ofBytes hlength hlimits] at h
  split at h
  · cases h
  next e he =>
    cases hb : Index.build e ((Stream.ofBytes bytes).turned (min bytes.size Encoding.magicLength))
        config with
    | error failure =>
      rw [hb] at h
      cases h
    | ok built =>
      rw [hb] at h
      cases h
      exact Encoding.detect?_eq_some_iff.mp he

theorem openStream_of_unmarked (h : ∀ e : Encoding, startsWith e.magic bytes.toList = false) :
    (openStream (.ofBytes bytes) config).1 = .error (.error .formatUnrecognized) := by
  rw [openStream_ofBytes hlength hlimits]
  cases he : Encoding.detect? bytes.toList with
  | none => rfl
  | some e =>
    have hmagic := Encoding.detect?_eq_some_iff.mp he
    rw [h e] at hmagic
    cases hmagic

section Streamed

variable {α : Type} {k : Intake α} (hk : k.Serves)

include hk

theorem openStream_served (hmagic : startsWith k.encoding.magic bytes.toList = true) :
    (openStream (.ofBytes bytes) config).1 =
      (Failure.raise (k.ofStream
        ((Stream.ofBytes bytes).turned (min bytes.size Encoding.magicLength)) .none)).map
          fun (h, s, _) => ofIndex k.encoding config (k.index h) s := by
  rw [openStream_ofBytes hlength hlimits, Encoding.detect?_eq_some_iff.mpr hmagic]
  dsimp only
  rw [hk, Intake.build, hlimits]
  cases k.ofStream
    ((Stream.ofBytes bytes).turned (min bytes.size Encoding.magicLength)) .none <;> rfl

theorem opens_of_finds (hmagic : startsWith k.encoding.magic bytes.toList = true) {h : α}
    (hfinds : k.Finds h bytes.toList) :
    (openStream (.ofBytes bytes) config).1 =
      .ok (ofIndex k.encoding config (k.index h)
        ((Stream.ofBytes bytes).turned (k.reach bytes.size))) := by
  rw [openStream_served hlength hlimits hk hmagic,
    (Intake.ofStream_ofBytes_eq_ok_iff hlength).mpr ⟨hfinds, rfl, rfl⟩]
  rfl

theorem finds_of_opens (ho : (openStream (.ofBytes bytes) config).1 = .ok v)
    (he : v.encoding = k.encoding) :
    ∃ h, k.Finds h bytes.toList ∧ v = ofIndex k.encoding config (k.index h)
      ((Stream.ofBytes bytes).turned (k.reach bytes.size)) := by
  have hmagic := magic_of_openStream hlength hlimits ho
  rw [he] at hmagic
  rw [openStream_served hlength hlimits hk hmagic] at ho
  cases hb : k.ofStream
      ((Stream.ofBytes bytes).turned (min bytes.size Encoding.magicLength)) .none with
  | error e =>
    rw [hb] at ho
    cases ho
  | ok built =>
    obtain ⟨h, s, event⟩ := built
    rw [hb] at ho
    cases ho
    obtain ⟨hfinds, rfl, _⟩ := (Intake.ofStream_ofBytes_eq_ok_iff hlength).mp hb
    exact ⟨h, hfinds, rfl⟩

theorem fails_of_unfound (hmagic : startsWith k.encoding.magic bytes.toList = true)
    (hnone : ¬∃ h, k.Finds h bytes.toList) :
    ∃ flaw, (openStream (.ofBytes bytes) config).1 =
      .error (.error (.indexBuildFailed k.encoding flaw)) := by
  rw [openStream_served hlength hlimits hk hmagic]
  cases hb : k.ofStream
      ((Stream.ofBytes bytes).turned (min bytes.size Encoding.magicLength)) .none with
  | error e =>
    obtain ⟨flaw, rfl⟩ := Intake.flaw_of_ofStream hb
    exact ⟨flaw, rfl⟩
  | ok built => exact absurd ⟨_, ((Intake.ofStream_ofBytes_eq_ok_iff hlength).mp hb).1⟩ hnone

end Streamed

theorem opens_pnm_iff :
    (openStream (.ofBytes bytes) config).1 = .ok v ∧ v.encoding = .pnm ↔
      ∃ h : Netpbm.Header, (h.width < 0x100000000 ∧ h.height < 0x100000000 ∧
          h.Begins bytes.toList) ∧
        v = ofIndex .pnm config (.pnm h)
          ((Stream.ofBytes bytes).turned (min bytes.size Netpbm.maxHeaderBytes)) := by
  have hfinds (h : Netpbm.Header) : Netpbm.intake.Finds h bytes.toList ↔ _ :=
    Netpbm.Header.finds_iff (Array.length_toList ▸ hlength)
  constructor
  · rintro ⟨ho, he⟩
    obtain ⟨h, hfound, hv⟩ := finds_of_opens hlength hlimits Netpbm.serves_intake ho he
    exact ⟨h, (hfinds h).mp hfound, hv⟩
  · rintro ⟨h, hbegins, rfl⟩
    refine ⟨?_, rfl⟩
    exact opens_of_finds hlength hlimits Netpbm.serves_intake hbegins.2.2.startsWith
      ((hfinds h).mpr hbegins)

theorem opens_farbfeld_iff :
    (openStream (.ofBytes bytes) config).1 = .ok v ∧ v.encoding = .farbfeld ↔
      ∃ h : Farbfeld.Header, h.Begins bytes.toList ∧
        v = ofIndex .farbfeld config (.farbfeld h)
          ((Stream.ofBytes bytes).turned Farbfeld.headerBytes) := by
  have hfinds (h : Farbfeld.Header) : Farbfeld.intake.Finds h bytes.toList ↔ _ :=
    Farbfeld.Header.finds_iff (Array.length_toList ▸ hlength)
  constructor
  · rintro ⟨ho, he⟩
    obtain ⟨h, hfound, hv⟩ := finds_of_opens hlength hlimits Farbfeld.serves_intake ho he
    exact ⟨h, (hfinds h).mp hfound, hv⟩
  · rintro ⟨h, hbegins, rfl⟩
    refine ⟨?_, rfl⟩
    exact opens_of_finds hlength hlimits Farbfeld.serves_intake hbegins.startsWith
      ((hfinds h).mpr hbegins)

theorem fails_pnm (hmagic : startsWith Encoding.pnm.magic bytes.toList = true)
    (h : ¬∃ h : Netpbm.Header, h.width < 0x100000000 ∧ h.height < 0x100000000 ∧
      h.Begins bytes.toList) :
    ∃ flaw, (openStream (.ofBytes bytes) config).1 =
      .error (.error (.indexBuildFailed .pnm flaw)) := by
  apply fails_of_unfound hlength hlimits Netpbm.serves_intake hmagic
  rintro ⟨header, hfound⟩
  exact h ⟨header, (Netpbm.Header.finds_iff (Array.length_toList ▸ hlength)).mp hfound⟩

theorem fails_farbfeld (hmagic : startsWith Encoding.farbfeld.magic bytes.toList = true)
    (h : ¬∃ h : Farbfeld.Header, h.Begins bytes.toList) :
    ∃ flaw, (openStream (.ofBytes bytes) config).1 =
      .error (.error (.indexBuildFailed .farbfeld flaw)) := by
  apply fails_of_unfound hlength hlimits Farbfeld.serves_intake hmagic
  rintro ⟨header, hfound⟩
  exact h ⟨header, (Farbfeld.Header.finds_iff (Array.length_toList ▸ hlength)).mp hfound⟩

theorem eq_ofIndex_of_streamed (ho : (openStream (.ofBytes bytes) config).1 = .ok v)
    (he : v.encoding.hasRandomAccess = true) :
    ∃ index s, v = ofIndex v.encoding config index s ∧ index.dataEnd ≤ bytes.size ∧
      ∀ more, (bytes ++ more).size < Word.greatest →
        ∃ t, (openStream (.ofBytes (bytes ++ more)) config).1 =
          .ok (ofIndex v.encoding config index t) := by
  have hfile : bytes.toList.length = bytes.size := Array.length_toList
  cases hencoding : v.encoding with
  | pnm =>
    obtain ⟨h, hbegins, rfl⟩ := (opens_pnm_iff hlength hlimits).mp ⟨ho, hencoding⟩
    have hneeded := ((Netpbm.Header.finds_iff (hfile ▸ hlength)).mpr hbegins).2.2
    refine ⟨.pnm h, _, rfl, ?_, fun more hmore => ?_⟩
    · exact Netpbm.Header.data_le (hfile ▸ hneeded) hlength
    · have hbegins' := hbegins.2.2.append more.toList
      rw [← Array.toList_append] at hbegins'
      exact ⟨_, ((opens_pnm_iff hmore hlimits).mpr
        ⟨h, ⟨hbegins.1, hbegins.2.1, hbegins'⟩, rfl⟩).1⟩
  | farbfeld =>
    obtain ⟨h, hbegins, rfl⟩ := (opens_farbfeld_iff hlength hlimits).mp ⟨ho, hencoding⟩
    have hneeded := ((Farbfeld.Header.finds_iff (hfile ▸ hlength)).mpr hbegins).2.2
    refine ⟨.farbfeld h, _, rfl, ?_, fun more hmore => ?_⟩
    · exact Farbfeld.Header.data_le (hfile ▸ hneeded) hlength
    · have hbegins' := hbegins.append more.toList
      rw [← Array.toList_append] at hbegins'
      exact ⟨_, ((opens_farbfeld_iff hmore hlimits).mpr ⟨h, hbegins', rfl⟩).1⟩
  | _ =>
    rw [hencoding] at he
    cases he

end

def Alike (v w : Viewer) : Prop :=
  ∀ rect o stop, (v.decode rect o stop).1 = (w.decode rect o stop).1 ∧
    ∀ target, (v.decodeInto rect o target stop).1 = (w.decodeInto rect o target stop).1 ∧
      (v.decodeInto rect o target stop).2.1 = (w.decodeInto rect o target stop).2.1

theorem alike_fedBy {f : Feed}
    (ha : ∀ c, v.image.Clamped c → v.image.index.Agree c f.stream v.image.feed.stream) :
    (v.fedBy f v.image.allocator).Alike v := by
  intro rect o stop
  have hclamped (c : Rect) (hc : v.image.bounds.intersect? rect = some c) :=
    ha c (Image.clamped_of_intersect? hc)
  refine ⟨Image.decode_fedBy fun c hc => ⟨hclamped c hc, rfl⟩, fun target => ?_⟩
  exact Image.decodeInto_fedBy v.image.allocator stop hclamped target

theorem alike_append {e : Encoding} {index : Index} {s t : Stream} {f g : Feed}
    (hdata : index.dataEnd ≤ bytes.size) (hsize : (bytes ++ more).size ≤ Bitmap.maxBytes)
    (hf : ∃ p, f.stream = (Stream.ofBytes bytes).turned p)
    (hg : ∃ p, g.stream = (Stream.ofBytes (bytes ++ more)).turned p) :
    ((ofIndex e config index t).fedBy g config.allocator).Alike
      ((ofIndex e config index s).fedBy f config.allocator) := by
  obtain ⟨p, hf⟩ := hf
  obtain ⟨q, hg⟩ := hg
  let u := (ofIndex e config index s).fedBy f config.allocator
  show (u.fedBy g u.image.allocator).Alike u
  apply alike_fedBy
  intro c hc j _ hj
  rw [show u.image.feed.stream = _ from hf, hg, Stream.answers_turned, Stream.answers_turned,
    Stream.answers_turned, Stream.answers_turned]
  have hl := hc.left
  have hw := hc.width
  have hr := hc.right
  have hb := hc.bottom
  apply Index.rowOf_congr_data
  · intro offset n hstop
    apply Stream.answers_append more (Nat.le_trans hstop hdata)
    exact Nat.lt_of_le_of_lt hsize (by decide +kernel)
  · simp only [Image.width] at hr
    simp only [Rect.width]
    omega
  · simp only [Image.height] at hb
    omega

theorem opens_exactly (hsize : bytes.size ≤ Bitmap.maxBytes) (hlimits : config.limits = .none) :
    (∀ width height, (∃ v, (openStream (.ofBytes bytes) config).1 = .ok v ∧ v.encoding = .pnm ∧
        v.width = width ∧ v.height = height) ↔
      ∃ h : Netpbm.Header, (h.width < 0x100000000 ∧ h.height < 0x100000000 ∧
        h.Begins bytes.toList) ∧ h.width = width ∧ h.height = height) ∧
    (∀ width height, (∃ v, (openStream (.ofBytes bytes) config).1 = .ok v ∧
        v.encoding = .farbfeld ∧ v.width = width ∧ v.height = height) ↔
      ∃ h : Farbfeld.Header, h.Begins bytes.toList ∧ h.width = width ∧ h.height = height) ∧
    ((∃ kind rest, bytes.toList = 0x50 :: kind :: rest ∧ 0x31 ≤ kind ∧ kind ≤ 0x37) →
      (¬∃ h : Netpbm.Header, h.width < 0x100000000 ∧ h.height < 0x100000000 ∧
        h.Begins bytes.toList) →
      ∃ flaw, (openStream (.ofBytes bytes) config).1 =
        .error (.error (.indexBuildFailed .pnm flaw))) ∧
    (bytes.toList.take 8 = Farbfeld.name →
      (¬∃ h : Farbfeld.Header, h.Begins bytes.toList) →
      ∃ flaw, (openStream (.ofBytes bytes) config).1 =
        .error (.error (.indexBuildFailed .farbfeld flaw))) ∧
    ((∀ e : Encoding, startsWith e.magic bytes.toList = false) →
      (openStream (.ofBytes bytes) config).1 = .error (.error .formatUnrecognized)) ∧
    ∀ v, (openStream (.ofBytes bytes) config).1 = .ok v → v.encoding.hasRandomAccess = true →
      ∀ more, (bytes ++ more).size ≤ Bitmap.maxBytes →
        ∃ w, (openStream (.ofBytes (bytes ++ more)) config).1 = .ok w ∧
          w.encoding = v.encoding ∧ w.width = v.width ∧ w.height = v.height ∧
          ∀ f g : Feed, (∃ p, f.stream = (Stream.ofBytes bytes).turned p) →
            (∃ p, g.stream = (Stream.ofBytes (bytes ++ more)).turned p) →
            (w.fedBy g config.allocator).Alike (v.fedBy f config.allocator) := by
  have hlength : bytes.size < Word.greatest := Nat.lt_of_le_of_lt hsize (by decide +kernel)
  refine ⟨?_, ?_, ?_, ?_, openStream_of_unmarked hlength hlimits, ?_⟩
  · intro width height
    constructor
    · rintro ⟨v, ho, he, rfl, rfl⟩
      obtain ⟨h, hbegins, rfl⟩ := (opens_pnm_iff hlength hlimits).mp ⟨ho, he⟩
      exact ⟨h, hbegins, rfl, rfl⟩
    · rintro ⟨h, hbegins, rfl, rfl⟩
      obtain ⟨ho, he⟩ := (opens_pnm_iff hlength hlimits).mpr ⟨h, hbegins, rfl⟩
      exact ⟨_, ho, he, rfl, rfl⟩
  · intro width height
    constructor
    · rintro ⟨v, ho, he, rfl, rfl⟩
      obtain ⟨h, hbegins, rfl⟩ := (opens_farbfeld_iff hlength hlimits).mp ⟨ho, he⟩
      exact ⟨h, hbegins, rfl, rfl⟩
    · rintro ⟨h, hbegins, rfl, rfl⟩
      obtain ⟨ho, he⟩ := (opens_farbfeld_iff hlength hlimits).mpr ⟨h, hbegins, rfl⟩
      exact ⟨_, ho, he, rfl, rfl⟩
  · rintro ⟨kind, rest, hb, hlow, hhigh⟩
    apply fails_pnm hlength hlimits
    rw [hb]
    simp [startsWith, Encoding.magic, ByteClass.accepts, hlow, hhigh]
  · intro hname
    exact fails_farbfeld hlength hlimits (ByteClass.startsWith_exactly_iff.mpr hname)
  · intro v ho he more hmore
    have hmore' : (bytes ++ more).size < Word.greatest :=
      Nat.lt_of_le_of_lt hmore (by decide +kernel)
    obtain ⟨index, s, hv, hdata, happend⟩ := eq_ofIndex_of_streamed hlength hlimits ho he
    obtain ⟨t, hw⟩ := happend more hmore'
    refine ⟨_, hw, rfl, ?_, ?_, fun f g hf hg => ?_⟩
    · rw [hv]
      rfl
    · rw [hv]
      rfl
    · rw [hv]
      exact alike_append hdata hmore hf hg

def tinyBytes : Array UInt8 :=
  #[0x50, 0x36, 0x23, 0x0A, 0x31, 0x20, 0x31, 0x20, 0x32, 0x35, 0x35, 0x0A, 10, 20, 30]

theorem numeral_of_digit {d : UInt8} (h : Netpbm.isDigit d = true) :
    Netpbm.Numeral [d] (d.toNat - 0x30) := by
  refine ⟨List.cons_ne_nil _ _, fun b hb => ?_, Nat.ofDigits_singleton⟩
  obtain rfl := List.mem_singleton.mp hb
  exact h

theorem field_of_digit {d : UInt8} (h : Netpbm.isDigit d = true) :
    Netpbm.Field [0x20, d] (d.toNat - 0x30) :=
  ⟨[0x20], [d], rfl, List.cons_ne_nil _ _, .blank rfl .none, numeral_of_digit h⟩

theorem field_255 : Netpbm.Field [0x20, 0x32, 0x35, 0x35] 255 :=
  ⟨[0x20], [0x32, 0x35, 0x35], rfl, List.cons_ne_nil _ _, .blank rfl .none,
    List.cons_ne_nil _ _, List.all_eq_true.mp rfl, rfl⟩

theorem begins_tiny : Netpbm.Header.Begins ⟨3, 1, 1, 255, 12⟩ tinyBytes.toList := by
  refine ⟨[0x50, 0x36, 0x23, 0x0A, 0x31, 0x20, 0x31, 0x20, 0x32, 0x35, 0x35, 0x0A],
    [10, 20, 30], rfl, ⟨?_, by decide, by decide, by decide, by decide, rfl⟩, by decide, by decide⟩
  refine ⟨0x36, [0x23, 0x0A, 0x31], [0x20, 0x31], [0x20, 0x32, 0x35, 0x35], 0x0A, rfl,
    .inr ⟨rfl, rfl⟩, ?_, field_of_digit rfl, field_255, rfl⟩
  exact ⟨[0x23, 0x0A], [0x31], rfl, List.cons_ne_nil _ _,
    .comment (List.forall_mem_nil _) rfl .none, numeral_of_digit rfl⟩

theorem opens_exactly_of_tiny :
    ∃ v w, (openStream (.ofBytes tinyBytes) .standard).1 = .ok v ∧ v.encoding = .pnm ∧
      v.width = 1 ∧ v.height = 1 ∧
      (openStream (.ofBytes (tinyBytes ++ #[7])) .standard).1 = .ok w ∧ w.width = 1 ∧
      w.height = 1 ∧
      (w.fedBy (.ofStream (.ofBytes (tinyBytes ++ #[7]))) .heap).Alike
        (v.fedBy (.ofStream (.ofBytes tinyBytes)) .heap) := by
  obtain ⟨hpnm, _, _, _, _, happend⟩ :=
    opens_exactly (show tinyBytes.size ≤ Bitmap.maxBytes by decide)
      (show Config.standard.limits = .none from rfl)
  obtain ⟨v, ho, he, hwidth, hheight⟩ := (hpnm 1 1).mpr
    ⟨⟨3, 1, 1, 255, 12⟩, ⟨by decide, by decide, begins_tiny⟩, rfl, rfl⟩
  obtain ⟨w, hw, _, hw', hh', halike⟩ := happend v ho (he ▸ rfl) #[7] (by decide)
  exact ⟨v, w, ho, he, hwidth, hheight, hw, hw'.trans hwidth, hh'.trans hheight,
    halike _ _ ⟨0, rfl⟩ ⟨0, rfl⟩⟩

theorem refuses_wide {h : Netpbm.Header} {text samples : List UInt8} (hs : h.Spelled text)
    (htext : text.length ≤ Netpbm.maxHeaderBytes)
    (hlength : (text ++ samples).toArray.size < Word.greatest) (hlimits : config.limits = .none)
    (hwide : 0x100000000 ≤ h.width ∨ 0x100000000 ≤ h.height) :
    (openStream (.ofBytes (text ++ samples).toArray) config).1 =
      .error (.error (.indexBuildFailed .pnm .valueOutOfRange)) := by
  have hmagic : startsWith Encoding.pnm.magic (text ++ samples) = true := by
    apply ByteClass.startsWith_append
    exact hs.startsWith
  have hparse : Netpbm.intake.parse ((text ++ samples).toArray.toList.take
      (Netpbm.intake.reach (text ++ samples).toArray.size)) = .error .valueOutOfRange := by
    rw [List.size_toArray, Netpbm.Header.take_reach, List.take_append, List.take_of_length_le htext]
    exact (hs.parse _).trans (if_pos hwide)
  rw [openStream_served hlength hlimits Netpbm.serves_intake hmagic,
    Intake.ofStream_ofBytes hlength (Nat.min_le_left _ _), hparse]
  rfl

def broadText : List UInt8 :=
  [0x50, 0x35, 0x20, 0x34, 0x32, 0x39, 0x34, 0x39, 0x36, 0x37, 0x32, 0x39, 0x36, 0x20, 0x31, 0x20,
    0x32, 0x35, 0x35, 0x0A]

theorem spelled_broad : Netpbm.Header.Spelled ⟨1, 0x100000000, 1, 255, 20⟩ broadText := by
  refine ⟨?_, by decide, by decide, by decide, by decide, rfl⟩
  refine ⟨0x35, [0x20, 0x34, 0x32, 0x39, 0x34, 0x39, 0x36, 0x37, 0x32, 0x39, 0x36], [0x20, 0x31],
    [0x20, 0x32, 0x35, 0x35], 0x0A, rfl, .inl ⟨rfl, rfl⟩, ?_, field_of_digit rfl, field_255, rfl⟩
  exact ⟨[0x20], _, rfl, List.cons_ne_nil _ _, .blank rfl .none, List.cons_ne_nil _ _,
    List.all_eq_true.mp rfl, rfl⟩

theorem broad_begins_and_fails :
    let file := broadText ++ List.replicate 0x100000000 0
    file.toArray.size ≤ Bitmap.maxBytes ∧
      Netpbm.Header.Begins ⟨1, 0x100000000, 1, 255, 20⟩ file ∧
      (openStream (.ofBytes file.toArray) .standard).1 =
        .error (.error (.indexBuildFailed .pnm .valueOutOfRange)) := by
  intro file
  have hsize : file.toArray.size = 20 + 0x100000000 := by
    rw [List.size_toArray, List.length_append, List.length_replicate]
    rfl
  refine ⟨?_, ⟨broadText, _, rfl, spelled_broad, by decide, ?_⟩, ?_⟩
  · rw [hsize]
    decide +kernel
  · rw [List.length_replicate]
    decide +kernel
  · apply refuses_wide spelled_broad (by decide) _ rfl (.inl (Nat.le_refl _))
    rw [hsize]
    decide +kernel

end Viewer

end ImageRegion
