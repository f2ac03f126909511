import ImageRegion.Proofs.Image.Safety

namespace ImageRegion

open ByteClass (startsWith)

namespace Encoding

variable {e : Encoding} {bytes : List UInt8}

def lead : Encoding → UInt8
  | .jpeg => 0xFF
  | .png => 0x89
  | .gif => 0x47
  | .webp => 0x52
  | .bmp => 0x42
  | .pnm => 0x50
  | .farbfeld => 0x66

theorem eq_of_lead_eq {e' : Encoding} (h : e.lead = e'.lead) : e = e' := by
  cases e <;> cases e' <;> first | rfl | exact absurd h (by decide)

theorem head?_of_startsWith (h : startsWith e.magic bytes = true) : bytes.head? = some e.lead := by
  cases bytes with
  | nil => cases e <;> cases h
  | cons b bytes =>
    have hlead : (ByteClass.exactly e.lead).accepts b = true := by
      cases e <;> exact (Bool.and_eq_true _ _ ▸ h).1
    exact congrArg some (eq_of_beq hlead)

theorem eq_of_startsWith {e' : Encoding} (h : startsWith e.magic bytes = true)
    (h' : startsWith e'.magic bytes = true) : e = e' := by
  apply eq_of_lead_eq
  have hleads := (head?_of_startsWith h).symm.trans (head?_of_startsWith h')
  exact Option.some.inj hleads

theorem mem_all (e : Encoding) : e ∈ all := by
  cases e <;> decide

theorem detect?_eq_some_iff : detect? bytes = some e ↔ startsWith e.magic bytes = true := by
  constructor
  · exact fun h => List.find?_some (p := fun e => startsWith (magic e) bytes) h
  · intro h
    cases hd : detect? bytes with
    | none =>
      have := List.find?_eq_none.mp hd e (mem_all e)
      contradiction
    | some e' =>
      have h' := List.find?_some (p := fun e => startsWith (magic e) bytes) hd
      rw [eq_of_startsWith h' h]

theorem detect?_take : detect? (bytes.take magicLength) = detect? bytes := by
  have htake : (fun e : Encoding => startsWith e.magic (bytes.take magicLength)) =
      fun e => startsWith e.magic bytes :=
    funext fun e => ByteClass.startsWith_take _ _ (magic_length_le e)
  rw [detect?, htake]
  rfl

end Encoding

namespace Content

theorem toList_slice_ofBytes (bytes : Array UInt8) {count : Nat} (h : count ≤ bytes.size) :
    ((ofBytes bytes).slice 0 count).toList = bytes.toList.take count := by
  apply List.ext_getElem
  · rw [Array.length_toList, size_slice, List.length_take, Array.length_toList]
    omega
  · intro i hi _
    have hi : i < count := by rwa [Array.length_toList, size_slice] at hi
    simp only [slice, ofBytes, Array.getElem_toList, Array.getElem_ofFn, List.getElem_take,
      Nat.zero_add]
    rw [Array.getD_eq_getD_getElem?, Array.getElem?_eq_getElem (Nat.lt_of_lt_of_le hi h)]
    rfl

end Content

def Intake.Finds {α : Type} (k : Intake α) (h : α) (file : List UInt8) : Prop :=
  k.reach file.length ≤ file.length ∧ k.parse (file.take (k.reach file.length)) = .ok h ∧
    k.needed h ≤ file.length

def Netpbm.Header.Begins (h : Header) (file : List UInt8) : Prop :=
  ∃ text samples, file = text ++ samples ∧ h.Spelled text ∧ text.length ≤ maxHeaderBytes ∧
    h.width * h.height * (h.channels * if 255 < h.maxval then 2 else 1) ≤ samples.length

def Farbfeld.Header.Begins (h : Header) (file : List UInt8) : Prop :=
  h.Spelled file ∧ headerBytes + 8 * (h.width * h.height) ≤ file.length

namespace Netpbm.Header

variable {h : Header} {file : List UInt8}

theorem take_reach (file : List UInt8) :
    file.take (intake.reach file.length) = file.take maxHeaderBytes := by
  show file.take (min file.length maxHeaderBytes) = _
  rw [Nat.min_comm, ← List.take_take, List.take_length]

theorem finds_iff (hlength : file.length < Word.greatest) :
    intake.Finds h file ↔
      h.width < 0x100000000 ∧ h.height < 0x100000000 ∧ h.Begins file := by
  have hfinds : intake.Finds h file ↔
      parse (file.take maxHeaderBytes) = .ok h ∧ h.neededBytes ≤ file.length := by
    have hreach : intake.reach file.length ≤ file.length := Nat.min_le_left _ _
    unfold Intake.Finds
    rw [take_reach, and_iff_right hreach]
    rfl
  have hneeded : h.neededBytes ≤ file.length ↔
      h.width * h.height * (h.channels * if 255 < h.maxval then 2 else 1) + h.dataOffset ≤
        file.length := by
    unfold neededBytes rowBytes
    rw [Word.cap64_add_le_iff hlength, Nat.mul_right_comm]
    rfl
  rw [hfinds, hneeded, parse_eq_ok_iff]
  constructor
  · rintro ⟨⟨hwidth, hheight, text, rest, htake, hspelled⟩, hdata⟩
    have hoffset := hspelled.dataOffset
    have hfile : file = text ++ (rest ++ file.drop maxHeaderBytes) := by
      rw [← List.append_assoc, ← htake, List.take_append_drop]
    have htext : text.length ≤ maxHeaderBytes := by
      have := congrArg List.length htake
      rw [List.length_take, List.length_append] at this
      omega
    refine ⟨hwidth, hheight, text, _, hfile, hspelled, htext, ?_⟩
    rw [congrArg List.length hfile, List.length_append] at hdata
    omega
  · rintro ⟨hwidth, hheight, text, samples, rfl, hspelled, htext, hdata⟩
    have hoffset := hspelled.dataOffset
    refine ⟨⟨hwidth, hheight, text, samples.take (maxHeaderBytes - text.length), ?_, hspelled⟩, ?_⟩
    · rw [List.take_append, List.take_of_length_le htext]
    · rw [List.length_append]
      omega

theorem Spelled.startsWith {text : List UInt8} (hs : h.Spelled text) :
    startsWith Encoding.pnm.magic text = true := by
  obtain ⟨kind, width, height, maxval, blank, rfl, ⟨rfl, _⟩ | ⟨rfl, _⟩, _⟩ := hs.fields
  · rfl
  · rfl

theorem Begins.startsWith (hb : h.Begins file) :
    startsWith Encoding.pnm.magic file = true := by
  obtain ⟨text, samples, rfl, hspelled, _, _⟩ := hb
  exact ByteClass.startsWith_append _ hspelled.startsWith

theorem Begins.append (hb : h.Begins file) (more : List UInt8) : h.Begins (file ++ more) := by
  obtain ⟨text, samples, rfl, hspelled, htext, hdata⟩ := hb
  refine ⟨text, samples ++ more, List.append_assoc _ _ _, hspelled, htext, ?_⟩
  rw [List.length_append]
  omega

end Netpbm.Header

namespace Farbfeld.Header

variable {h : Header} {file : List UInt8}

theorem finds_iff (hlength : file.length < Word.greatest) :
    intake.Finds h file ↔ h.Begins file := by
  have hfinds : intake.Finds h file ↔
      headerBytes ≤ file.length ∧ parse (file.take headerBytes) = .ok h ∧
        h.neededBytes ≤ file.length := Iff.rfl
  have hneeded : h.neededBytes ≤ file.length ↔
      headerBytes + 8 * (h.width * h.height) ≤ file.length := by
    unfold neededBytes
    rw [Word.cap64_add_le_iff hlength, Nat.add_comm, Nat.mul_comm]
    rfl
  rw [hfinds, hneeded, parse_eq_ok_iff, spelled_take_iff]
  constructor
  · rintro ⟨_, ⟨_, hspelled⟩, hdata⟩
    exact ⟨hspelled, hdata⟩
  · rintro ⟨hspelled, hdata⟩
    have hhead : headerBytes ≤ file.length := by omega
    refine ⟨hhead, ⟨?_, hspelled⟩, hdata⟩
    rw [List.length_take]
    omega

theorem Begins.startsWith (hb : h.Begins file) :
    startsWith Encoding.farbfeld.magic file = true :=
  ByteClass.startsWith_exactly_iff.mpr hb.1.magic

theorem Begins.append (hb : h.Begins file) (more : List UInt8) : h.Begins (file ++ more) := by
  obtain ⟨hspelled, hdata⟩ := hb
  have htake : (file ++ more).take headerBytes = file.take headerBytes := by
    rw [List.take_append_of_le_length (by omega)]
  refine ⟨?_, ?_⟩
  · rw [← spelled_take_iff, htake, spelled_take_iff]
    exact hspelled
  · rw [List.length_append]
    omega

end Farbfeld.Header

namespace Intake

variable {α : Type} {k : Intake α} {h : α} {bytes : Array UInt8} {position : Nat} {t : Stream}
  {event : Event}

theorem ofStream_ofBytes (hlength : bytes.size < Word.greatest)
    (hreach : k.reach bytes.size ≤ bytes.size) (position : Nat) (limits : Limits) :
    k.ofStream ((Stream.ofBytes bytes).turned position) limits =
      k.finish ((Stream.ofBytes bytes).turned (k.reach bytes.size)) limits
        (k.parse (bytes.toList.take (k.reach bytes.size))) := by
  have hword : bytes.size < 0x10000000000000000 := Word.lt_of_lt_greatest hlength
  have hmemory := (Stream.inMemory_ofBytes bytes).turned position
  have hstop : 0 + k.reach bytes.size ≤ bytes.size := by omega
  unfold ofStream
  rw [show ((Stream.ofBytes bytes).turned position).length = bytes.size from rfl,
    hmemory.readExactAt_eq hstop hword, Nat.zero_add]
  dsimp only
  rw [show ((Stream.ofBytes bytes).turned position).content = .ofBytes bytes from rfl,
    Content.toList_slice_ofBytes bytes hreach]
  rfl

theorem ofStream_ofBytes_eq_ok_iff (hlength : bytes.size < Word.greatest) :
    k.ofStream ((Stream.ofBytes bytes).turned position) .none = .ok (h, t, event) ↔
      k.Finds h bytes.toList ∧ t = (Stream.ofBytes bytes).turned (k.reach bytes.size) ∧
        event = k.event h := by
  unfold Finds
  rw [Array.length_toList]
  by_cases hreach : k.reach bytes.size ≤ bytes.size
  · rw [ofStream_ofBytes hlength hreach, finish_eq_ok_iff, and_iff_right hreach]
    constructor
    · rintro ⟨hp, _, hneeded, rfl, rfl⟩
      exact ⟨⟨hp, hneeded⟩, rfl, rfl⟩
    · rintro ⟨⟨hp, hneeded⟩, rfl, rfl⟩
      exact ⟨hp, rfl, hneeded, rfl, rfl⟩
  · constructor
    · intro ho
      obtain ⟨_, hread, _⟩ := ofStream_eq_ok_iff.mp ho
      obtain ⟨_, hend⟩ := Stream.answers_ok_iff.mp ⟨_, congrArg Prod.fst hread⟩
      have hclear := (hend.resolve_left fun hzero => hreach (hzero ▸ Nat.zero_le _)).1
      have hpos : 0 < 0 + k.reach bytes.size := by omega
      have hstop : 0 + k.reach bytes.size ≤ bytes.size := hclear.stop_le hpos
      omega
    · rintro ⟨⟨hle, _⟩, _⟩
      exact absurd hle hreach

end Intake

def Stream.start (s : Stream) : List UInt8 :=
  (s.content.slice 0 (min s.length Encoding.magicLength)).toList

theorem Stream.detect?_start_ofBytes (bytes : Array UInt8) :
    Encoding.detect? (ofBytes bytes).start = Encoding.detect? bytes.toList := by
  have hstart : (ofBytes bytes).start = bytes.toList.take Encoding.magicLength := by
    refine (Content.toList_slice_ofBytes bytes (Nat.min_le_left _ _)).trans ?_
    rw [Nat.min_comm, ← List.take_take]
    exact congrArg _ (List.take_of_length_le (Nat.le_of_eq Array.length_toList))
  rw [hstart, Encoding.detect?_take]

namespace Viewer

variable {bytes : Array UInt8} {s : Stream} {config : Config}

def ofIndex (e : Encoding) (config : Config) (index : Index) (s : Stream) : Viewer :=
  ⟨⟨e, config.allocator, config.limits, index, .ofStream s⟩, index.width, index.height⟩

theorem openStream_eq (hs : s.InMemory) (hlength : s.length < Word.greatest)
    (hlimits : config.limits = .none) :
    (openStream s config).1 =
      match Encoding.detect? s.start with
      | none => .error (.error .formatUnrecognized)
      | some e => (Index.build e (s.turned (min s.length Encoding.magicLength)) config).map
          fun (index, s, _) => ofIndex e config index s := by
  have hword : s.length < 0x10000000000000000 := Word.lt_of_lt_greatest hlength
  have hstop : 0 + min s.length Encoding.magicLength ≤ s.length := by omega
  have hsource : config.limits.checkSource s.length = .ok () := by
    rw [hlimits]
    rfl
  have hprobe : Probe.ofStream s =
      match Encoding.detect? s.start with
      | none => (.error .formatUnrecognized, s.turned (min s.length Encoding.magicLength))
      | some e => (.ok ⟨e, .heap⟩, s.turned (min s.length Encoding.magicLength)) := by
    unfold Probe.ofStream
    rw [hs.readExactAt_eq hstop hword, Nat.zero_add]
    show (match Encoding.detect? s.start with | none => _ | some e => _) = _
    cases Encoding.detect? s.start <;> rfl
  unfold openStream openChanging
  simp only [hsource, hprobe]
  cases Encoding.detect? s.start with
  | none => rfl
  | some e =>
    simp only [Probe.index, id]
    cases Index.build e (s.turned (min s.length Encoding.magicLength)) config with
    | error failure => rfl
    | ok built => rfl

theorem openStream_ofBytes (hlength : bytes.size < Word.greatest)
    (hlimits : config.limits = .none) :
    (openStream (.ofBytes bytes) config).1 =
      match Encoding.detect? bytes.toList with
      | none => .error (.error .formatUnrecognized)
      | some e => (Index.build e
          ((Stream.ofBytes bytes).turned (min bytes.size Encoding.magicLength)) config).map
            fun (index, s, _) => ofIndex e config index s := by
  rw [openStream_eq (Stream.inMemory_ofBytes bytes) hlength hlimits, Stream.detect?_start_ofBytes]
  rfl

end Viewer

end ImageRegion
