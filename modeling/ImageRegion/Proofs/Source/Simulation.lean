import ImageRegion.Proofs.Source.Copies
import Mathlib.Data.List.Defs

/-!
Streams as cursors over bytes. Whatever is done to a stream over bytes in memory, it replies and
moves as a cursor over them does. So does a stream over a file that holds the bytes, but for reads
that end where files have no position, which are refused and move nothing, and for single reads of
more bytes than the system moves at once, which give the first of them.
-/

namespace ImageRegion

def Target.place (size p : Nat) : Target → Int
  | .start offset => offset
  | .fromEnd delta => size + delta
  | .fromHere delta => p + delta

namespace Stream

inductive Act
  | read (count : Nat)
  | readExact (count : Nat)
  | readToEnd
  | seek (target : Target)
  | rewind
  | position

inductive Reply
  | bytes (bytes : Array UInt8)
  | position (position : Nat)
  | done
  | fault (kind : Fault.Kind)
  deriving DecidableEq

def Reply.ofExcept {α : Type} (reply : α → Reply) : Except Fault α → Reply
  | .ok a => reply a
  | .error e => .fault e.kind

def act (s : Stream) : Act → Reply × Stream
  | .read count => (.ofExcept .bytes (s.read count).1, (s.read count).2)
  | .readExact count => (.ofExcept .bytes (s.readExact count).1, (s.readExact count).2)
  | .readToEnd => (.ofExcept .bytes s.readToEnd.1, s.readToEnd.2)
  | .seek target => (.ofExcept .position (s.seek target).1, (s.seek target).2)
  | .rewind => (.ofExcept (fun _ => .done) (s.seek (.start 0)).1, (s.seek (.start 0)).2)
  | .position => (.ofExcept .position (s.seek (.fromHere 0)).1, (s.seek (.fromHere 0)).2)

def replies (s : Stream) : List Act → List (Reply × Nat)
  | [] => []
  | a :: acts => ((s.act a).1, (s.act a).2.position) :: (s.act a).2.replies acts

def moved (p : Nat) (target : Int) : Reply × Nat :=
  if 0 ≤ target ∧ target < 0x10000000000000000 then (.position target.toNat, target.toNat)
  else (.fault .invalidInput, p)

/-- What a cursor at `p` over the bytes replies, and where it stands then. -/
def Act.on (bytes : Array UInt8) (p : Nat) : Act → Reply × Nat
  | .read count => (.bytes (bytes.extract p (p + count)), p + min count (bytes.size - p))
  | .readExact count =>
    if bytes.size - p < count then (.fault .unexpectedEnd, p + (bytes.size - p))
    else (.bytes (bytes.extract p (p + count)), p + count)
  | .readToEnd => (.bytes (bytes.extract p bytes.size), p + (bytes.size - p))
  | .seek target => moved p (target.place bytes.size p)
  | .rewind => (.done, 0)
  | .position => moved p p

def Act.stop? (size p : Nat) : Act → Option Nat
  | .read count => some (p + count)
  | .readExact count => if count = 0 then none else some (p + count)
  | .readToEnd => some (p + (size - p + lookAhead))
  | _ => none

def Act.onFile (bytes : Array UInt8) (p : Nat) (a : Act) : Reply × Nat :=
  if (a.stop? bytes.size p).all (· < fileLimit) then a.on bytes p else (.fault .invalidInput, p)

def trace (step : Nat → Act → Reply × Nat) (p : Nat) : List Act → List (Reply × Nat)
  | [] => []
  | a :: acts => step p a :: trace step (step p a).2 acts

def Along (step : Nat → Act → Reply × Nat) (P : Nat → Act → Prop) (p : Nat) : List Act → Prop
  | [] => True
  | a :: acts => P p a ∧ Along step P (step p a).2 acts

def Act.InReach (bytes : Array UInt8) (p : Nat) (a : Act) : Prop :=
  ∀ stop ∈ a.stop? bytes.size p, stop < fileLimit

def Act.OutOfBytes (bytes : Array UInt8) (p : Nat) (a : Act) : Prop :=
  ∀ stop ∈ a.stop? bytes.size p, stop < fileLimit ∨ bytes.size ≤ p

/-- A single read at `p` finds no more bytes than the system moves at once. -/
def Act.InOneMove (bytes : Array UInt8) (p : Nat) : Act → Prop
  | .read count => min count (bytes.size - p) ≤ longestRead
  | _ => True

/-- The second is the first, or is refused where the first found nothing. -/
structure Follows (q q' : Reply × Nat) : Prop where
  position : q'.2 = q.2
  reply : q'.1 = q.1 ∨
    q'.1 = .fault .invalidInput ∧ (q.1 = .bytes #[] ∨ q.1 = .fault .unexpectedEnd)

structure Over (s : Stream) (bytes : Array UInt8) : Prop where
  content : s.content.Copies bytes none
  length : s.length = bytes.size
  seekFault : s.seekFault = none
  refusal : s.refusal.kind = .invalidInput

/-- One read moves all that it is asked for, up to the most that the system moves at once. -/
def MovesAll (portion : Nat → Nat → Nat) : Prop :=
  ∀ p count, min count longestRead ≤ portion p count

def Act.Undivided (bytes : Array UInt8) (s : Stream) : Act → Prop
  | .read count => min count (bytes.size - s.position) ≤ s.portion s.position count
  | _ => True

variable {s : Stream} {bytes : Array UInt8} {count : Nat} {a : Act}

theorem Act.InOneMove.undivided (h : a.InOneMove bytes s.position) (hmoves : MovesAll s.portion) :
    a.Undivided bytes s := by
  cases a with
  | read count => exact Nat.le_trans (by simp only [InOneMove] at h; omega) (hmoves _ count)
  | _ => trivial

theorem read_of_over (h : s.Over bytes) (hp : s.medium.Permits (s.position + count)) :
    ∃ n, n = min (s.wanted count) (bytes.size - s.position) ∧
      s.read count = (.ok (bytes.extract s.position (s.position + n)),
        s.turned (s.position + n)) := by
  obtain ⟨n, hn, hread⟩ := read_of_sound (sound_of_copies h.content) hp
  rw [h.content.size] at hn
  have hrest : n ≤ bytes.size - s.position := by omega
  rw [Content.slice_eq_extract h.content.byteAt hrest] at hread
  exact ⟨n, hn, hread⟩

theorem wanted_of_undivided (h : (Act.read count).Undivided bytes s) :
    min (s.wanted count) (bytes.size - s.position) = min count (bytes.size - s.position) := by
  simp only [Act.Undivided] at h
  unfold wanted
  split <;> omega

theorem fill_zero (s : Stream) (got : Array UInt8) : s.fill 0 got = (got, none, s) := by
  rw [fill, dif_pos rfl]

theorem fill_of_refused {fault : Fault} (hc : 0 < count) (h : s.readRefusal? count = some fault)
    (got : Array UInt8) : s.fill count got = (got, some fault, s) := by
  have hread : s.read count = (.error fault, s) := by
    unfold read
    rw [h]
  rw [fill, dif_neg (Nat.ne_of_gt hc), hread]

theorem seek_of_over (h : s.Over bytes) (target : Target) :
    (Reply.ofExcept .position (s.seek target).1, (s.seek target).2.position) =
        moved s.position (target.place bytes.size s.position) ∧
      ∃ p, (s.seek target).2 = s.turned p := by
  have htarget : s.positionOf target = target.place bytes.size s.position := by
    cases target <;> simp only [positionOf, Target.place, h.length]
  unfold seek moved
  rw [h.seekFault, htarget]
  dsimp only
  split
  · refine ⟨rfl, (target.place bytes.size s.position).toNat, ?_⟩
    rw [turned, h.seekFault]
  · refine ⟨?_, s.position, rfl⟩
    rw [Reply.ofExcept, h.refusal]

theorem act_of_over (h : s.Over bytes)
    (hp : ∀ stop ∈ a.stop? bytes.size s.position, s.medium.Permits stop)
    (ha : a.Undivided bytes s) :
    ((s.act a).1, (s.act a).2.position) = a.on bytes s.position ∧
      ∃ p, (s.act a).2 = s.turned p := by
  cases a with
  | read count =>
    obtain ⟨n, hn, hread⟩ := read_of_over h (hp _ rfl)
    rw [wanted_of_undivided ha] at hn
    have hsame : bytes.extract s.position (s.position + n) =
        bytes.extract s.position (s.position + count) := by
      rw [Array.extract_eq_extract_right]
      omega
    rw [act, hread, hsame, hn]
    exact ⟨rfl, _, rfl⟩
  | readExact count =>
    -- Nothing is asked of the medium for no bytes, so it need not permit anything.
    rcases Nat.eq_zero_or_pos count with rfl | hc
    · have hempty : bytes.extract s.position (s.position + 0) = #[] :=
        Array.extract_empty_of_stop_le_start (Nat.le_refl _)
      rw [act, readExact, fill_zero]
      refine ⟨?_, s.position, rfl⟩
      simp only [Act.on, Nat.not_lt_zero, if_false, hempty]
      rfl
    · have hstop := hp (s.position + count) (if_neg (Nat.ne_of_gt hc))
      rw [act, readExact_of_copies h.content hstop]
      refine ⟨?_, _, rfl⟩
      by_cases hshort : bytes.size - s.position < count
      · simp only [Act.on, if_pos hshort, Nat.min_eq_right (Nat.le_of_lt hshort)]
        rfl
      · simp only [Act.on, if_neg hshort, Nat.min_eq_left (Nat.le_of_not_lt hshort)]
        rfl
  | readToEnd =>
    rw [act, readToEnd_of_copies h.content (hp _ rfl)]
    exact ⟨rfl, _, rfl⟩
  | seek target => exact seek_of_over h target
  | rewind =>
    rw [act, seek_start_of_seekable h.seekFault (by decide)]
    exact ⟨rfl, _, rfl⟩
  | position =>
    have hplace : (Target.fromHere 0).place bytes.size s.position = s.position := Int.add_zero _
    have hseek := seek_of_over h (.fromHere 0)
    rw [hplace] at hseek
    exact hseek

theorem readRefusal?_of_file {number : Nat} (hm : s.medium = .descriptor number true)
    (hstop : fileLimit ≤ s.position + count) : s.readRefusal? count = some .invalidArgument := by
  unfold readRefusal?
  rw [hm]
  by_cases hp : fileLimit ≤ s.position
  · exact if_pos hp
  · exact (if_neg hp).trans (if_pos hstop)

theorem act_of_file {number : Nat} (h : s.Over bytes) (hm : s.medium = .descriptor number true)
    (ha : a.Undivided bytes s) :
    ((s.act a).1, (s.act a).2.position) = a.onFile bytes s.position ∧
      ∃ p, (s.act a).2 = s.turned p := by
  unfold Act.onFile
  by_cases hreach : (a.stop? bytes.size s.position).all (· < fileLimit) = true
  · rw [if_pos hreach]
    refine act_of_over h (fun stop hstop => ?_) ha
    rw [hm]
    exact ⟨rfl, of_decide_eq_true ((Option.all_eq_true _ _).mp hreach stop hstop)⟩
  · rw [if_neg hreach]
    -- One read asks for all that is missing, so the first is refused and nothing has moved.
    cases a with
    | read count =>
      have hrefused := readRefusal?_of_file hm (Nat.le_of_not_lt fun hlt =>
        hreach (decide_eq_true hlt))
      rw [act, read, hrefused]
      exact ⟨rfl, s.position, rfl⟩
    | readExact count =>
      rcases Nat.eq_zero_or_pos count with rfl | hc
      · exact absurd rfl hreach
      · rw [Act.stop?, if_neg (Nat.ne_of_gt hc)] at hreach
        have hrefused := readRefusal?_of_file hm (Nat.le_of_not_lt fun hlt =>
          hreach (decide_eq_true hlt))
        rw [act, readExact, fill_of_refused hc hrefused]
        exact ⟨rfl, s.position, rfl⟩
    | readToEnd =>
      have hremaining : s.remaining = bytes.size - s.position := by
        rw [remaining, h.content.reach, h.content.size, Nat.min_self, Nat.add_sub_cancel_left]
      have hrefused := readRefusal?_of_file hm (Nat.le_of_not_lt fun hlt =>
        hreach (decide_eq_true hlt))
      rw [← hremaining] at hrefused
      rw [act, readToEnd, fill_of_refused (Nat.add_pos_right _ (by decide)) hrefused]
      exact ⟨rfl, s.position, rfl⟩
    | seek target => exact absurd rfl hreach
    | rewind => exact absurd rfl hreach
    | position => exact absurd rfl hreach

theorem along_of_forall {step : Nat → Act → Reply × Nat} {P : Nat → Act → Prop}
    (h : ∀ p a, P p a) (p : Nat) (acts : List Act) : Along step P p acts := by
  induction acts generalizing p with
  | nil => trivial
  | cons a acts ih => exact ⟨h p a, ih _⟩

theorem replies_eq_trace {step : Nat → Act → Reply × Nat} {P : Nat → Act → Prop}
    (h : ∀ p a, P p a → (((s.turned p).act a).1, ((s.turned p).act a).2.position) = step p a ∧
      ∃ q, ((s.turned p).act a).2 = s.turned q) {p : Nat} {acts : List Act}
    (hacts : Along step P p acts) : (s.turned p).replies acts = trace step p acts := by
  -- Whatever is done, the stream is the first one turned to the cursor of the trace.
  induction acts generalizing p with
  | nil => rfl
  | cons a acts ih =>
    obtain ⟨hstep, q, hq⟩ := h p a hacts.1
    have hposition : q = (step p a).2 := by
      rw [← hstep, hq]
      rfl
    rw [replies, trace, hstep, hq, hposition, ih hacts.2]

theorem Over.turned (h : s.Over bytes) (p : Nat) : (s.turned p).Over bytes :=
  ⟨h.content, h.length, h.seekFault, h.refusal⟩

theorem over_ofBytes (bytes : Array UInt8) : (ofBytes bytes).Over bytes :=
  ⟨Content.copies_ofBytes bytes none, rfl, rfl, rfl⟩

theorem over_ofFile (bytes : Array UInt8) (number owner : Nat) (isReadable : Bool)
    (portion : Nat → Nat → Nat) :
    (ofFile ⟨number, .ofBytes bytes, owner, isReadable, portion⟩).Over bytes :=
  ⟨Content.copies_ofBytes bytes none, rfl, rfl, rfl⟩

theorem trace_onFile {p : Nat} {acts : List Act}
    (h : Along (Act.on bytes) (Act.InReach bytes) p acts) :
    trace (Act.onFile bytes) p acts = trace (Act.on bytes) p acts := by
  induction acts generalizing p with
  | nil => rfl
  | cons a acts ih =>
    obtain ⟨hstop, hrest⟩ := h
    have hall : (a.stop? bytes.size p).all (· < fileLimit) = true :=
      (Option.all_eq_true _ _).mpr fun stop hs => decide_eq_true (hstop stop hs)
    have hsame : a.onFile bytes p = a.on bytes p := if_pos hall
    rw [trace, trace, hsame, ih hrest]

theorem on_past_end {p stop : Nat} (hp : bytes.size ≤ p)
    (hstop : a.stop? bytes.size p = some stop) :
    (a.on bytes p).2 = p ∧
      ((a.on bytes p).1 = .bytes #[] ∨ (a.on bytes p).1 = .fault .unexpectedEnd) := by
  have hrest : bytes.size - p = 0 := Nat.sub_eq_zero_of_le hp
  have hempty (count : Nat) : bytes.extract p count = #[] :=
    Array.extract_empty_of_size_le_start hp
  cases a with
  | read count =>
    simp only [Act.on, hrest, hempty, Nat.min_zero, Nat.add_zero]
    exact ⟨trivial, .inl trivial⟩
  | readExact count =>
    rcases Nat.eq_zero_or_pos count with rfl | hc
    · cases hstop
    · simp only [Act.on, hrest, if_pos hc, Nat.add_zero]
      exact ⟨trivial, .inr trivial⟩
  | readToEnd =>
    simp only [Act.on, hrest, hempty, Nat.add_zero]
    exact ⟨trivial, .inl trivial⟩
  | seek target => cases hstop
  | rewind => cases hstop
  | position => cases hstop

theorem follows_onFile {p : Nat} (h : a.OutOfBytes bytes p) :
    Follows (a.on bytes p) (a.onFile bytes p) := by
  unfold Act.onFile
  split
  · exact ⟨rfl, .inl rfl⟩
  next hreach =>
    cases hstop : a.stop? bytes.size p with
    | none =>
      rw [hstop] at hreach
      exact absurd rfl hreach
    | some stop =>
      rw [hstop] at hreach
      have hpast := (h stop hstop).resolve_left fun hlt => hreach (decide_eq_true hlt)
      obtain ⟨hposition, hreply⟩ := on_past_end hpast hstop
      exact ⟨hposition.symm, .inr ⟨rfl, hreply⟩⟩

theorem trace_follows {p : Nat} {acts : List Act}
    (h : Along (Act.on bytes) (Act.OutOfBytes bytes) p acts) :
    List.Forall₂ Follows (trace (Act.on bytes) p acts) (trace (Act.onFile bytes) p acts) := by
  induction acts generalizing p with
  | nil => exact .nil
  | cons a acts ih =>
    have hfollows := follows_onFile h.1
    rw [trace, trace, hfollows.position]
    exact .cons hfollows (ih h.2)

instance (bytes : Array UInt8) (p : Nat) (a : Act) : Decidable (a.InReach bytes p) :=
  inferInstanceAs (Decidable (∀ stop ∈ a.stop? bytes.size p, stop < fileLimit))

instance (bytes : Array UInt8) (p : Nat) (a : Act) : Decidable (a.OutOfBytes bytes p) :=
  inferInstanceAs (Decidable (∀ stop ∈ a.stop? bytes.size p, stop < fileLimit ∨ bytes.size ≤ p))

instance (bytes : Array UInt8) (p : Nat) : (a : Act) → Decidable (a.InOneMove bytes p)
  | .read _ => inferInstanceAs (Decidable (_ ≤ _))
  | .readExact _ | .readToEnd | .seek _ | .rewind | .position => .isTrue trivial

instance decidableAlong (step : Nat → Act → Reply × Nat) (P : Nat → Act → Prop)
    [∀ p a, Decidable (P p a)] : ∀ (p : Nat) (acts : List Act), Decidable (Along step P p acts)
  | _, [] => .isTrue trivial
  | p, a :: acts =>
    have := decidableAlong step P (step p a).2 acts
    inferInstanceAs (Decidable (_ ∧ _))

theorem read_of_file {number p : Nat} (h : s.Over bytes) (hm : s.medium = .descriptor number true)
    (hmoves : MovesAll s.portion) (hstop : p + count < fileLimit) :
    ∃ n, min (min count (bytes.size - p)) longestRead ≤ n ∧ n ≤ min count (bytes.size - p) ∧
      (s.turned p).act (.read count) = (.bytes (bytes.extract p (p + n)), s.turned (p + n)) := by
  have hpermits : (s.turned p).medium.Permits ((s.turned p).position + count) := by
    rw [show (s.turned p).medium = s.medium from rfl, hm]
    exact ⟨rfl, hstop⟩
  obtain ⟨n, hn, hread⟩ := read_of_over (h.turned p) hpermits
  have hportion : min count longestRead ≤ (s.turned p).portion (s.turned p).position count :=
    hmoves p count
  have hwanted : min count longestRead ≤ (s.turned p).wanted count := by
    unfold wanted
    split <;> omega
  have hle := (s.turned p).wanted_le count
  have hposition : (s.turned p).position = p := rfl
  refine ⟨n, by omega, by omega, ?_⟩
  rw [act, hread]
  rfl

end Stream

end ImageRegion
