import ImageRegion.Image.Opening
import ImageRegion.Proofs.Source.Answers

namespace ImageRegion

theorem bind_eq_ok {ε α β : Type} {m : Except ε α} {k : α → Except ε β} {b : β}
    (h : (m >>= k) = .ok b) : ∃ a, m = .ok a ∧ k a = .ok b := by
  cases m with
  | error e => cases h
  | ok a => exact ⟨a, rfl, h⟩

theorem mapError_eq_ok {ε ε' α : Type} {r : Except ε α} {f : ε → ε'} {a : α}
    (h : r.mapError f = .ok a) : r = .ok a := by
  cases r with
  | error e => cases h
  | ok a =>
    cases h
    rfl

theorem Stream.readExactAt_eq_turned {s s' : Stream} {offset count : Nat}
    {r : Except Fault (Array UInt8)} (h : s.readExactAt offset count = (r, s')) :
    ∃ position, s' = s.turned position := by
  obtain ⟨position, hp⟩ := s.readExactAt_turns offset count
  exact ⟨position, by rw [← hp, h]⟩

structure Intake (α : Type) where
  encoding : Encoding
  reach : Nat → Nat
  blame : Fault → Flaw
  parse : List UInt8 → Except Flaw α
  width : α → Nat
  height : α → Nat
  needed : α → Nat
  event : α → Event
  index : α → Index

namespace Intake

variable {α : Type} {k : Intake α} {s t : Stream} {limits : Limits} {config : Config} {h : α}
  {event : Event} {parsed : Except Flaw α} {e : Error}

def finish (k : Intake α) (s : Stream) (limits : Limits) :
    Except Flaw α → Except Error (α × Stream × Event)
  | .error flaw => .error (.indexBuildFailed k.encoding flaw)
  | .ok h => do
    Limits.raise (limits.checkImage (k.width h) (k.height h))
    if s.length < k.needed h then
      .error (.indexBuildFailed k.encoding (.truncatedData s.length (k.needed h)))
    else .ok (h, s, k.event h)

def ofStream (k : Intake α) (s : Stream) (limits : Limits) : Except Error (α × Stream × Event) :=
  match s.readExactAt 0 (k.reach s.length) with
  | (.error fault, _) => .error (.indexBuildFailed k.encoding (k.blame fault))
  | (.ok bytes, s) => k.finish s limits (k.parse bytes.toList)

def build (k : Intake α) (s : Stream) (config : Config) :
    Except Failure (Index × Stream × Event) := do
  let (h, s, event) ← Failure.raise (k.ofStream s config.limits)
  .ok (k.index h, s, event)

def Serves (k : Intake α) : Prop := ∀ s config, Index.build k.encoding s config = k.build s config

theorem finish_eq_ok_iff : k.finish s limits parsed = .ok (h, t, event) ↔
    parsed = .ok h ∧ limits.checkImage (k.width h) (k.height h) = .ok () ∧
      k.needed h ≤ s.length ∧ t = s ∧ event = k.event h := by
  constructor
  · intro hf
    cases parsed with
    | error flaw => cases hf
    | ok h =>
      obtain ⟨_, hcheck, hf⟩ := bind_eq_ok hf
      split at hf
      · cases hf
      next hlength =>
        cases hf
        exact ⟨rfl, mapError_eq_ok hcheck, Nat.le_of_not_lt hlength, rfl, rfl⟩
  · rintro ⟨rfl, hcheck, hlength, rfl, rfl⟩
    simp only [finish, hcheck, Nat.not_lt_of_le hlength, if_false]
    rfl

theorem ofStream_eq_ok_iff : k.ofStream s limits = .ok (h, t, event) ↔
    ∃ bytes, s.readExactAt 0 (k.reach s.length) = (.ok bytes, t) ∧
      k.parse bytes.toList = .ok h ∧ limits.checkImage (k.width h) (k.height h) = .ok () ∧
      k.needed h ≤ t.length ∧ event = k.event h := by
  unfold ofStream
  cases hr : s.readExactAt 0 (k.reach s.length) with
  | mk result u =>
    cases result with
    | error fault => simp
    | ok bytes =>
      simp only [finish_eq_ok_iff, Prod.mk.injEq, Except.ok.injEq]
      constructor
      · rintro ⟨hp, hcheck, hlength, rfl, he⟩
        exact ⟨bytes, ⟨rfl, rfl⟩, hp, hcheck, hlength, he⟩
      · rintro ⟨_, ⟨rfl, rfl⟩, hp, hcheck, hlength, he⟩
        exact ⟨hp, hcheck, hlength, rfl, he⟩

theorem parse_of_ofStream (ho : k.ofStream s limits = .ok (h, t, event)) :
    (∃ bytes, k.parse bytes = .ok h) ∧ k.needed h ≤ s.length ∧
      ∃ position, t = s.turned position := by
  obtain ⟨bytes, hr, hp, _, hlength, _⟩ := ofStream_eq_ok_iff.mp ho
  obtain ⟨position, rfl⟩ := Stream.readExactAt_eq_turned hr
  exact ⟨⟨_, hp⟩, hlength, position, rfl⟩

theorem ofStream_unlimited (ho : k.ofStream s limits = .ok (h, t, event)) :
    k.ofStream s .none = .ok (h, t, event) := by
  obtain ⟨bytes, hr, hp, _, hlength, he⟩ := ofStream_eq_ok_iff.mp ho
  exact ofStream_eq_ok_iff.mpr ⟨bytes, hr, hp, rfl, hlength, he⟩

theorem flaw_of_ofStream (ho : k.ofStream s .none = .error e) :
    ∃ flaw, e = .indexBuildFailed k.encoding flaw := by
  unfold ofStream at ho
  split at ho
  · cases ho
    exact ⟨_, rfl⟩
  next bytes u _ =>
    cases hp : k.parse bytes.toList with
    | error flaw =>
      rw [hp] at ho
      cases ho
      exact ⟨flaw, rfl⟩
    | ok h =>
      rw [hp] at ho
      change ite _ _ _ = _ at ho
      split at ho
      · cases ho
        exact ⟨_, rfl⟩
      · cases ho

theorem build_eq_ok {index : Index} (hb : k.build s config = .ok (index, t, event)) :
    ∃ h, k.ofStream s config.limits = .ok (h, t, event) ∧ index = k.index h := by
  obtain ⟨⟨h, u, event⟩, ho, hb⟩ := bind_eq_ok hb
  cases hb
  exact ⟨h, mapError_eq_ok ho, rfl⟩

end Intake

def Netpbm.intake : Intake Header where
  encoding := .pnm
  reach length := min length maxHeaderBytes
  blame := .unreadable
  parse := Header.parse
  width := Header.width
  height := Header.height
  needed := Header.neededBytes
  event h := .pnmIndexed h.width h.height h.channels h.maxval h.dataOffset
  index := .pnm

def Farbfeld.intake : Intake Header where
  encoding := .farbfeld
  reach _ := headerBytes
  blame _ := .truncatedHeader
  parse := Header.parse
  width := Header.width
  height := Header.height
  needed := Header.neededBytes
  event h := .farbfeldIndexed h.width h.height
  index := .farbfeld

theorem Netpbm.intake_ofStream (s : Stream) (limits : Limits) :
    intake.ofStream s limits = Header.ofStream s limits := by
  unfold Intake.ofStream Header.ofStream
  dsimp only [intake]
  cases s.readExactAt 0 (min s.length maxHeaderBytes) with
  | mk result u =>
    cases result with
    | error fault => rfl
    | ok bytes => cases hp : Header.parse bytes.toList <;> simp only [hp] <;> rfl

theorem Farbfeld.intake_ofStream (s : Stream) (limits : Limits) :
    intake.ofStream s limits = Header.ofStream s limits := by
  unfold Intake.ofStream Header.ofStream
  dsimp only [intake]
  cases s.readExactAt 0 headerBytes with
  | mk result u =>
    cases result with
    | error fault => rfl
    | ok bytes => cases hp : Header.parse bytes.toList <;> simp only [hp] <;> rfl

theorem Netpbm.serves_intake : intake.Serves := by
  intro s config
  unfold Intake.build
  rw [intake_ofStream]
  rfl

theorem Farbfeld.serves_intake : intake.Serves := by
  intro s config
  unfold Intake.build
  rw [intake_ofStream]
  rfl

end ImageRegion
