import Mathlib.Data.List.Forall2
import ImageRegion.Proofs.Image.Files

namespace ImageRegion

open ByteClass (startsWith)

def ByteClass.Admits (classes : List ByteClass) (bytes : List UInt8) : Prop :=
  List.Forall₂ (fun c b => accepts c b = true) classes bytes

theorem ByteClass.startsWith_iff {classes : List ByteClass} {bytes : List UInt8} :
    startsWith classes bytes = true ↔ ∃ front, Admits classes front ∧ front <+: bytes := by
  induction classes generalizing bytes with
  | nil => exact ⟨fun _ => ⟨[], .nil, List.nil_prefix⟩, fun _ => rfl⟩
  | cons c classes ih =>
    cases bytes with
    | nil =>
      constructor
      · intro h
        cases h
      · rintro ⟨front, hfront, hbytes⟩
        rw [List.prefix_nil.mp hbytes] at hfront
        cases hfront
    | cons b bytes =>
      rw [startsWith, Bool.and_eq_true, ih]
      constructor
      · rintro ⟨hb, front, hfront, hbytes⟩
        exact ⟨b :: front, .cons hb hfront, List.cons_prefix_cons.mpr ⟨rfl, hbytes⟩⟩
      · rintro ⟨front, hfront, hbytes⟩
        cases hfront with
        | cons hb hfront =>
          obtain ⟨rfl, hrest⟩ := List.cons_prefix_cons.mp hbytes
          exact ⟨hb, _, hfront, hrest⟩

namespace Encoding

inductive Mark : Encoding → List UInt8 → Prop
  | jpeg : Mark .jpeg [0xFF, 0xD8, 0xFF]
  | png : Mark .png [0x89, 0x50, 0x4E, 0x47, 0x0D, 0x0A, 0x1A, 0x0A]
  | gif {version : UInt8} (h : version = 0x37 ∨ version = 0x39) :
      Mark .gif [0x47, 0x49, 0x46, 0x38, version, 0x61]
  | webp (size₀ size₁ size₂ size₃ : UInt8) :
      Mark .webp [0x52, 0x49, 0x46, 0x46, size₀, size₁, size₂, size₃, 0x57, 0x45, 0x42, 0x50]
  | bmp (size₀ size₁ size₂ size₃ : UInt8) : Mark .bmp [0x42, 0x4D, size₀, size₁, size₂, size₃]
  | pnm {kind : UInt8} (low : 0x31 ≤ kind) (high : kind ≤ 0x37) : Mark .pnm [0x50, kind]
  | farbfeld : Mark .farbfeld [0x66, 0x61, 0x72, 0x62, 0x66, 0x65, 0x6C, 0x64]

def Marks (e : Encoding) (bytes : List UInt8) : Prop := ∃ mark, e.Mark mark ∧ mark <+: bytes

variable {e e' : Encoding} {bytes more : List UInt8}

theorem admits_magic_iff : ByteClass.Admits e.magic bytes ↔ e.Mark bytes := by
  constructor
  · intro h
    cases e <;> simp [ByteClass.Admits, magic, ByteClass.accepts, List.forall₂_cons_left_iff] at h
    case jpeg => exact h ▸ .jpeg
    case png => exact h ▸ .png
    case gif =>
      rcases h with rfl | rfl
      · exact .gif (.inl rfl)
      · exact .gif (.inr rfl)
    case webp =>
      obtain ⟨a, b, c, d, rfl⟩ := h
      exact .webp a b c d
    case bmp =>
      obtain ⟨a, b, c, d, rfl⟩ := h
      exact .bmp a b c d
    case pnm =>
      obtain ⟨kind, ⟨low, high⟩, rfl⟩ := h
      exact .pnm low high
    case farbfeld => exact h ▸ .farbfeld
  · intro h
    cases h with
    | gif h => rcases h with rfl | rfl <;> simp [ByteClass.Admits, magic, ByteClass.accepts]
    | _ => simp_all [ByteClass.Admits, magic, ByteClass.accepts]

theorem startsWith_magic_iff : startsWith e.magic bytes = true ↔ e.Marks bytes := by
  simp only [ByteClass.startsWith_iff, admits_magic_iff, Marks]

theorem detect?_iff_marks : detect? bytes = some e ↔ e.Marks bytes := by
  rw [detect?_eq_some_iff, startsWith_magic_iff]

theorem Marks.extend (h : e.Marks bytes) (hmore : bytes <+: more) : e.Marks more := by
  obtain ⟨mark, hmark, hbytes⟩ := h
  exact ⟨mark, hmark, hbytes.trans hmore⟩

theorem find?_eq_detect? {order : List Encoding} (h : ∀ e, e ∈ order) (bytes : List UInt8) :
    (order.find? fun e => startsWith e.magic bytes) = detect? bytes := by
  cases hd : detect? bytes with
  | none =>
    rw [List.find?_eq_none]
    intro e _ hmagic
    rw [detect?_eq_some_iff.mpr hmagic] at hd
    cases hd
  | some e =>
    have hmagic := detect?_eq_some_iff.mp hd
    have hsome : (order.find? fun e => startsWith e.magic bytes).isSome = true := by
      rw [List.find?_isSome]
      exact ⟨e, h e, hmagic⟩
    obtain ⟨e', hfound⟩ := Option.isSome_iff_exists.mp hsome
    have hmagic' := List.find?_some (p := fun e => startsWith (magic e) bytes) hfound
    rw [hfound, eq_of_startsWith hmagic' hmagic]

end Encoding

theorem Content.take_slice (c : Content) (start count n : Nat) :
    (c.slice start count).toList.take n = (c.slice start (min count n)).toList := by
  apply List.ext_getElem
  · simp [slice, Nat.min_comm]
  · intro i hi _
    simp [slice]

def Stream.file (s : Stream) : List UInt8 := (s.content.slice 0 s.length).toList

def Stream.IsProbed (s : Stream) : Prop :=
  s.seekFault = none ∧ (s.length = 0 ∨ s.Reaches ⟨0, min s.length Encoding.magicLength⟩)

namespace Probe

variable {s : Stream}

theorem isProbed_iff :
    s.IsProbed ↔ ∃ bytes, s.answers 0 (min s.length Encoding.magicLength) = .ok bytes := by
  have hzero : min s.length Encoding.magicLength = 0 ↔ s.length = 0 := by
    simp only [Encoding.magicLength]
    omega
  rw [Stream.answers_ok_iff, Nat.zero_add, hzero]
  exact ⟨fun h => ⟨⟨h.1, by decide⟩, h.2⟩, fun h => ⟨h.1.1, h.2⟩⟩

theorem ofStream_of_probed (h : s.IsProbed) : (ofStream s).1 =
    match Encoding.detect? s.file with
    | none => .error .formatUnrecognized
    | some e => .ok ⟨e, .heap⟩ := by
  have hfile : Encoding.detect? s.file = Encoding.detect? s.start := by
    rw [← Encoding.detect?_take, Stream.file, Content.take_slice]
    rfl
  unfold ofStream
  rw [Stream.readExactAt_of_ok (isProbed_iff.mp h), hfile, Stream.start]
  dsimp only
  cases Encoding.detect? (s.content.slice 0 (min s.length Encoding.magicLength)).toList <;> rfl

theorem ofStream_of_not_probed (h : ¬s.IsProbed) :
    ∃ fault, (ofStream s).1 = .error (.sourceUnreadable fault) := by
  rw [isProbed_iff] at h
  unfold ofStream
  rcases hread : s.readExactAt 0 (min s.length Encoding.magicLength) with ⟨fault | bytes, s'⟩
  · exact ⟨fault, rfl⟩
  · exact absurd ⟨bytes, congrArg Prod.fst hread⟩ h

end Probe

theorem Stream.file_ofBytes (bytes : Array UInt8) : (ofBytes bytes).file = bytes.toList :=
  (Content.toList_slice_ofBytes bytes (Nat.le_refl _)).trans
    (List.take_of_length_le (Nat.le_of_eq Array.length_toList))

theorem Stream.InMemory.isProbed {s : Stream} (h : s.InMemory) : s.IsProbed := by
  have hyields : s.Yields ⟨0, min s.length Encoding.magicLength⟩ := h.yields (Nat.min_le_left _ _)
  exact ⟨hyields.1, .inr hyields.2⟩

theorem Encoding.detection_is_unambiguous :
    (∀ bytes e, (startsWith e.magic bytes = true ↔ e.Marks bytes) ∧
      (detect? bytes = some e ↔ e.Marks bytes)) ∧
    (∀ bytes, detect? (bytes.take magicLength) = detect? bytes) ∧
    (∀ bytes more e, bytes <+: more → detect? bytes = some e → detect? more = some e) ∧
    (∀ bytes e e', startsWith (magic e) bytes = true → startsWith (magic e') bytes = true →
      e = e') ∧
    (∀ order : List Encoding, (∀ e, e ∈ order) → ∀ bytes,
      (order.find? fun e => startsWith e.magic bytes) = detect? bytes) ∧
    (∀ s : Stream,
      (s.IsProbed → (Probe.ofStream s).1 = match detect? s.file with
        | none => .error .formatUnrecognized
        | some e => .ok ⟨e, .heap⟩) ∧
      (¬s.IsProbed → ∃ fault, (Probe.ofStream s).1 = .error (.sourceUnreadable fault))) ∧
    ∀ bytes, (Stream.ofBytes bytes).IsProbed ∧ (Stream.ofBytes bytes).file = bytes.toList := by
  refine ⟨fun _ _ => ⟨startsWith_magic_iff, detect?_iff_marks⟩, fun _ => detect?_take, ?_,
    fun _ _ _ => eq_of_startsWith, fun _ => find?_eq_detect?,
    fun _ => ⟨Probe.ofStream_of_probed, Probe.ofStream_of_not_probed⟩,
    fun bytes => ⟨(Stream.inMemory_ofBytes bytes).isProbed, Stream.file_ofBytes bytes⟩⟩
  intro bytes more e hmore hd
  exact detect?_iff_marks.mpr ((detect?_iff_marks.mp hd).extend hmore)

namespace Encoding

def bitmapHead : Array UInt8 := #[0x42, 0x4D, 0x3A, 0x00, 0x00, 0x00, 0x00, 0x00]

theorem detection_is_unambiguous_of_bitmapHead :
    Encoding.bmp.Marks bitmapHead.toList ∧
      (all.reverse.find? fun e => startsWith e.magic bitmapHead.toList) = some .bmp ∧
      detect? bitmapHead.toList = some .bmp ∧
      (∀ e, startsWith (magic e) bitmapHead.toList = true → e = .bmp) ∧
      (∃ p, (Probe.ofStream (.ofBytes bitmapHead)).1 = .ok p ∧ p.encoding = .bmp) := by
  obtain ⟨hmarks, _, hprefix, hunique, horder, hprobe, hmemory⟩ := detection_is_unambiguous
  obtain ⟨hprobed, hfile⟩ := hmemory bitmapHead
  have hfront : detect? (bitmapHead.toList.take 6) = some .bmp := by rfl
  have hd : detect? bitmapHead.toList = some .bmp :=
    hprefix _ _ _ (List.take_prefix _ _) hfront
  refine ⟨(hmarks _ _).2.mp hd, ?_, hd, fun e he => ?_, ⟨.bmp, .heap⟩, ?_, rfl⟩
  · rw [horder _ (fun e => List.mem_reverse.mpr (mem_all e)), hd]
  · exact hunique _ _ _ he ((hmarks _ _).1.mpr ((hmarks _ _).2.mp hd))
  · rw [(hprobe _).1 hprobed, hfile, hd]

end Encoding

end ImageRegion
