import ImageRegion.Proofs.Gates
import ImageRegion.Proofs.Registry.Calls

/-!
What an error tells of the phase it comes from. No error of a call on an open image is an open
failure. Opening can also end with a cap that was exceeded, which is no open failure either, but
never with the cap that calls are held against.
-/

namespace ImageRegion

namespace Error

inductive EndsOpening (l : Limits) : Error → Prop
  | unopened {e : Error} (h : e.isOpenFailure = true) : EndsOpening l e
  | overCap {excess : Excess} (hlimit : excess.limit ≠ .regionBytes)
      (hcap : l.cap excess.limit = some excess.max) (hover : excess.max < excess.actual) :
      EndsOpening l (.limitExceeded excess)

structure EndsCall (e : Error) : Prop where
  opened : e.isOpenFailure = false
  limit : ∀ excess, e = .limitExceeded excess → excess.limit = .regionBytes

variable {l : Limits} {e : Error}

theorem EndsOpening.not_endsCall (h : e.EndsOpening l) : ¬e.EndsCall := by
  intro hcall
  cases h with
  | unopened h =>
    rw [hcall.opened] at h
    cases h
  | overCap hlimit _ _ => exact hlimit (hcall.limit _ rfl)

theorem EndsOpening.isOpenFailure (h : e.EndsOpening l)
    (hcaps : ∀ limit, limit ≠ .regionBytes → l.cap limit = none) : e.isOpenFailure = true := by
  cases h with
  | unopened h => exact h
  | overCap hlimit hcap _ =>
    rw [hcaps _ hlimit] at hcap
    cases hcap

theorem endsCall_of_ne (hopened : e.isOpenFailure = false)
    (hlimit : ∀ excess, e ≠ .limitExceeded excess) : e.EndsCall :=
  ⟨hopened, fun excess he => absurd he (hlimit excess)⟩

end Error

theorem bind_eq_error {ε α β : Type} {m : Except ε α} {k : α → Except ε β} {e : ε}
    (h : (m >>= k) = .error e) : m = .error e ∨ ∃ a, m = .ok a ∧ k a = .error e := by
  cases m with
  | error cause =>
    cases h
    exact .inl rfl
  | ok a => exact .inr ⟨a, rfl, h⟩

theorem mapError_eq_error {ε ε' α : Type} {r : Except ε α} {f : ε → ε'} {e : ε'}
    (h : r.mapError f = .error e) : ∃ cause, r = .error cause ∧ e = f cause := by
  cases r with
  | ok a => cases h
  | error cause =>
    cases h
    exact ⟨cause, rfl, rfl⟩

theorem Failure.raise_eq_error {α : Type} {r : Except Error α} {e : Error}
    (h : Failure.raise r = .error (.error e)) : r = .error e := by
  obtain ⟨_, hr, he⟩ := mapError_eq_error h
  cases he
  exact hr

theorem Failure.fitting_ne_error {α : Type} {r : Except Word.Overflow α} {e : Error} :
    Failure.fitting r ≠ .error (.error e) := by
  intro h
  obtain ⟨_, _, he⟩ := mapError_eq_error h
  cases he

theorem except_map_eq_error {ε α β : Type} {r : Except ε α} {f : α → β} {e : ε}
    (h : r.map f = .error e) : r = .error e := by
  cases r with
  | ok a => cases h
  | error cause =>
    cases h
    rfl

section Opening

variable {l : Limits} {e : Error} {s : Stream} {config : Config} {encoding : Encoding}

theorem Limits.endsOpening_of_check (limit : Limit) {actual : Nat} {excess : Excess}
    (hlimit : limit ≠ .regionBytes) (h : check limit actual (l.cap limit) = .error excess) :
    (Error.limitExceeded excess).EndsOpening l := by
  obtain ⟨max, hcap, hover, rfl⟩ := (check_eq_error_iff _ _ _ _).mp h
  exact .overCap hlimit hcap hover

theorem Limits.endsOpening_of_checkImage {width height : Nat} {excess : Excess}
    (h : l.checkImage width height = .error excess) :
    (Error.limitExceeded excess).EndsOpening l := by
  rcases bind_eq_error h with h | ⟨_, _, h⟩
  · exact endsOpening_of_check .width (by decide) h
  · rcases bind_eq_error h with h | ⟨_, _, h⟩
    · exact endsOpening_of_check .height (by decide) h
    · exact endsOpening_of_check .pixels (by decide) h

theorem Intake.endsOpening_of_finish {α : Type} {k : Intake α} {parsed : Except Flaw α}
    (h : k.finish s l parsed = .error e) : e.EndsOpening l := by
  cases parsed with
  | error flaw =>
    cases h
    exact .unopened rfl
  | ok header =>
    rcases bind_eq_error h with h | ⟨_, _, h⟩
    · obtain ⟨excess, hcheck, rfl⟩ := mapError_eq_error h
      exact Limits.endsOpening_of_checkImage hcheck
    · split at h
      · cases h
        exact .unopened rfl
      · cases h

theorem Intake.endsOpening_of_build {α : Type} {k : Intake α}
    (h : k.build s config = .error (.error e)) : e.EndsOpening config.limits := by
  rcases bind_eq_error h with h | ⟨_, _, h⟩
  · have h := Failure.raise_eq_error h
    unfold ofStream at h
    split at h
    · cases h
      exact .unopened rfl
    · exact endsOpening_of_finish h
  · cases h

theorem Index.endsOpening_of_admitTiles {width height : Nat}
    (h : admitTiles l encoding width height = .error (.error e)) : e.EndsOpening l := by
  unfold admitTiles at h
  split at h
  · cases h
    exact .unopened rfl
  · rcases bind_eq_error h with h | ⟨_, _, h⟩
    · obtain ⟨excess, hcheck, rfl⟩ := mapError_eq_error (Failure.raise_eq_error h)
      exact Limits.endsOpening_of_checkImage hcheck
    · rcases bind_eq_error h with h | ⟨bytes, _, h⟩
      · exact absurd h Failure.fitting_ne_error
      · obtain ⟨excess, hcheck, rfl⟩ := mapError_eq_error (Failure.raise_eq_error h)
        exact Limits.endsOpening_of_check .indexBytes (by decide) hcheck

theorem Index.endsOpening_of_tile (h : tile encoding s config = .error (.error e)) :
    e.EndsOpening config.limits := by
  unfold tile at h
  split at h
  · cases h
    exact .unopened rfl
  · split at h
    · cases h
      exact .unopened rfl
    · rcases bind_eq_error h with h | ⟨_, _, h⟩
      · exact endsOpening_of_admitTiles h
      · cases h
        exact .unopened rfl
    · rcases bind_eq_error h with h | ⟨_, _, h⟩
      · exact endsOpening_of_admitTiles h
      · rcases bind_eq_error h with h | ⟨_, _, h⟩
        · exact absurd h Failure.fitting_ne_error
        · cases h

theorem Index.endsOpening_of_build (h : build encoding s config = .error (.error e)) :
    e.EndsOpening config.limits := by
  cases encoding with
  | pnm => exact Intake.endsOpening_of_build ((Netpbm.serves_intake s config).symm.trans h)
  | farbfeld => exact Intake.endsOpening_of_build ((Farbfeld.serves_intake s config).symm.trans h)
  | _ => exact endsOpening_of_tile h

theorem Probe.endsOpening_of_ofStream {t : Stream} (h : ofStream s = (.error e, t)) :
    e.EndsOpening l := by
  unfold ofStream at h
  split at h
  · cases h
    exact .unopened rfl
  · split at h
    · cases h
      exact .unopened rfl
    · cases h

theorem Viewer.endsOpening_of_openChanging {between : Stream → Stream}
    (h : (openChanging between s config).1 = .error (.error e)) : e.EndsOpening config.limits := by
  unfold openChanging at h
  split at h
  next excess hcheck =>
    cases h
    exact Limits.endsOpening_of_check .sourceBytes (by decide) hcheck
  · split at h
    next hprobe =>
      cases h
      exact Probe.endsOpening_of_ofStream hprobe
    · split at h
      next failure hindex =>
        cases h
        rcases bind_eq_error hindex with hbuild | ⟨_, _, hbuilt⟩
        · exact Index.endsOpening_of_build hbuild
        · cases hbuilt
      · cases h

def Supply.Overflows (supply : Supply) (bytes : Nat) : Prop :=
  ∃ asset, supply = .asset asset bytes ∧ Allocator.addressable ≤ bytes

theorem Supply.endsOpening_of_stream {supply : Supply} (h : supply.stream = .error e) :
    e.EndsOpening l ∨ ∃ bytes, supply.Overflows bytes ∧ e = .outOfMemory bytes := by
  cases supply with
  | bytes content => cases h
  | file file => cases h
  | drained reader =>
    simp only [Supply.stream, Stream.ofReader] at h
    split at h
    · cases h
      exact .inl (.unopened rfl)
    · cases h
  | asset asset declared =>
    simp only [Supply.stream, Stream.ofAsset] at h
    split at h
    next hdeclared =>
      cases h
      exact .inr ⟨declared, ⟨asset, rfl, hdeclared⟩, rfl⟩
    · split at h
      · cases h
        exact .inl (.unopened rfl)
      · split at h
        · cases h
          exact .inl (.unopened rfl)
        · cases h
  | held reader =>
    simp only [Supply.stream, Stream.measured] at h
    split at h
    · cases h
      exact .inl (.unopened rfl)
    · split at h
      · cases h
        exact .inl (.unopened rfl)
      · cases h

theorem Supply.endsOpening_of_viewer {supply : Supply}
    (h : supply.viewer config = .error (.error e)) :
    e.EndsOpening config.limits ∨ ∃ bytes, supply.Overflows bytes ∧ e = .outOfMemory bytes := by
  unfold viewer at h
  split at h
  next hstream =>
    cases h
    exact endsOpening_of_stream hstream
  · exact .inl (Viewer.endsOpening_of_openChanging h)

end Opening

def Allocator.OnlyRunsOut (a : Allocator) : Prop :=
  ∀ bytes e, a.allot bytes = .refused e → ∃ requested, e = .outOfMemory requested

section Calls

variable {im : Image} {v : Viewer} {rect : Rect} {o : Options} {stop : Stop} {e : Error}

theorem Image.endsCall_of_plan {halt : Halt} (h : im.plan rect o stop = .error halt)
    (he : halt = .error e) : e.EndsCall := by
  subst he
  unfold plan at h
  split at h
  · cases h
    exact Error.endsCall_of_ne rfl nofun
  · split at h
    · cases h
    · split at h
      · cases h
        exact Error.endsCall_of_ne rfl nofun
      · dsimp only at h
        split at h
        next excess hcheck =>
          cases h
          obtain ⟨max, _, _, rfl⟩ := (Limits.check_eq_error_iff _ _ _ _).mp hcheck
          exact ⟨rfl, fun _ hexcess => by cases hexcess; rfl⟩
        · cases h

theorem Halt.eq_error_of_result {α : Type} {halt : Halt}
    (h : halt.result (α := α) = .error (.error e)) : halt = .error e := by
  cases halt with
  | error cause =>
    cases h
    rfl
  | cancelled reason => cases h

theorem Ending.endsCall_of_result {α : Type} {ending : Ending} {value : α}
    (h : ending.result value = .error (.error e)) : e.EndsCall := by
  cases ending with
  | finished => cases h
  | cancelled reason => cases h
  | failed fault =>
    cases h
    exact Error.endsCall_of_ne rfl nofun
  | breached breach => cases h

theorem Image.endsCall_of_decode (ha : im.allocator.OnlyRunsOut)
    (h : (im.decode rect o stop).1.result = .error (.error e)) : e.EndsCall := by
  unfold decode at h
  split at h
  next hplan => exact endsCall_of_plan hplan (Halt.eq_error_of_result h)
  · dsimp only at h
    split at h
    next hrefused =>
      cases h
      obtain ⟨requested, rfl⟩ := ha _ _ hrefused
      exact Error.endsCall_of_ne rfl nofun
    · cases h
    · exact Ending.endsCall_of_result h

theorem Image.endsCall_of_decodeInto {target : Bitmap}
    (h : (im.decodeInto rect o target stop).1.result = .error (.error e)) : e.EndsCall := by
  unfold decodeInto at h
  split at h
  next hplan => exact endsCall_of_plan hplan (Halt.eq_error_of_result h)
  · dsimp only at h
    split at h
    next hreconfigured =>
      cases h
      unfold Bitmap.reconfigure at hreconfigured
      dsimp only at hreconfigured
      split at hreconfigured
      · cases hreconfigured
        exact Error.endsCall_of_ne rfl nofun
      · cases hreconfigured
    · exact Ending.endsCall_of_result h

theorem Decoding.endsCall_of_toExcept {α : Type} {d : Decoding α}
    (hd : ∀ e, d.result = .error (.error e) → e.EndsCall) (h : d.toExcept = .error (.error e)) :
    e.EndsCall := by
  unfold toExcept at h
  split at h
  next outcome _ =>
    cases outcome with
    | decoded value => cases h
    | cancelled reason =>
      cases h
      exact Error.endsCall_of_ne rfl nofun
  next hresult =>
    cases h
    exact hd e hresult

theorem Viewer.endsCall_of_decodeRegion {target : Option Bitmap} {format : Option PixelFormat}
    {sampleSize : Nat} (ha : v.image.allocator.OnlyRunsOut)
    (h : (v.decodeRegion target rect format sampleSize).1 = .error (.error e)) : e.EndsCall := by
  cases target with
  | none =>
    have hfresh := except_map_eq_error h
    exact Decoding.endsCall_of_toExcept (fun _ he => Image.endsCall_of_decode ha he) hfresh
  | some target =>
    have hinto := except_map_eq_error h
    exact Decoding.endsCall_of_toExcept (fun _ he => Image.endsCall_of_decodeInto he) hinto

end Calls

namespace Holding

variable {held : Holding} {rect : Rect} {o : Options} {stop : Stop} {e : Error}

theorem endsCall_of_decode (ha : ∀ v, held.viewer? = some v → v.image.allocator.OnlyRunsOut)
    (h : (held.decode rect o stop).1.result = .error (.error e)) : e.EndsCall := by
  cases hv : held.viewer? with
  | some v =>
    rw [(decode_of_viewer? hv rect o stop).1] at h
    exact Image.endsCall_of_decode (ha v hv) h
  | none =>
    cases held with
    | owned v => cases hv
    | shelved c handle =>
      have hnone : c.get? handle = none := hv
      simp only [decode, Catalogue.decode, hnone] at h
      cases h
      refine Error.endsCall_of_ne rfl fun excess he => ?_
      cases he

theorem endsCall_of_decodeInto {target : Bitmap}
    (h : (held.decodeInto rect o target stop).1.result = .error (.error e)) : e.EndsCall := by
  cases hv : held.viewer? with
  | some v =>
    rw [(decodeInto_of_viewer? hv rect o target stop).1] at h
    exact Image.endsCall_of_decodeInto h
  | none =>
    cases held with
    | owned v => cases hv
    | shelved c handle =>
      have hnone : c.get? handle = none := hv
      simp only [decodeInto, Catalogue.decodeInto, hnone] at h
      cases h
      refine Error.endsCall_of_ne rfl fun excess he => ?_
      cases he

end Holding

/-- Without caps on what is opened, and for a supply that fits memory, every error of an opening
says so. Under caps an opening ends in no error of a call all the same, nor a call in one of an
opening. A failed opening leaves a catalogue as it was, and a failed call leaves the image. -/
theorem Error.phases_end_apart (supply : Supply) (config : Config) (held : Holding) (rect : Rect)
    (o : Options) (stop : Stop) :
    (∀ e, supply.viewer config = .error (.error e) →
      ((∀ limit, limit ≠ .regionBytes → config.limits.cap limit = none) →
        (¬∃ bytes, supply.Overflows bytes) → e.isOpenFailure = true) ∧
      (e.EndsOpening config.limits ∨ ∃ bytes, supply.Overflows bytes ∧ e = .outOfMemory bytes) ∧
      ∀ c : Catalogue, c.call (.bring supply config) = (.given (.error (.error e)), c)) ∧
    (∀ s e, (Viewer.openStream s config).1 = .error (.error e) → e.EndsOpening config.limits) ∧
    ((∀ v, held.viewer? = some v → v.image.allocator.OnlyRunsOut) →
      (∀ e, (held.decode rect o stop).1.result = .error (.error e) → e.EndsCall) ∧
      ∀ target e, (held.decodeInto rect o target stop).1.result = .error (.error e) →
        e.EndsCall) ∧
    (∀ v target format sampleSize e, held.viewer? = some v → v.image.allocator.OnlyRunsOut →
      (v.decodeRegion target rect format sampleSize).1 = .error (.error e) → e.EndsCall) ∧
    (∀ v, held.viewer? = some v →
      (∃ f, (held.decode rect o stop).2.viewer? = some (v.fedBy f v.image.allocator)) ∧
      ∀ target, ∃ f, (held.decodeInto rect o target stop).2.2.viewer? =
        some (v.fedBy f v.image.allocator)) ∧
    ∀ l (e : Error), e.EndsOpening l → ¬e.EndsCall := by
  refine ⟨?opening, ?stream, ?calls, ?regions, ?kept, ?apart⟩
  case opening =>
    intro e h
    have hends := Supply.endsOpening_of_viewer h
    refine ⟨fun hcaps hfits => ?_, hends, fun c => ?_⟩
    · rcases hends with hends | ⟨bytes, hover, _⟩
      · exact hends.isOpenFailure hcaps
      · exact absurd ⟨bytes, hover⟩ hfits
    · simp only [Catalogue.call, h]
  case stream => exact fun s e h => Viewer.endsOpening_of_openChanging h
  case calls =>
    intro ha
    exact ⟨fun e h => Holding.endsCall_of_decode ha h,
      fun target e h => Holding.endsCall_of_decodeInto h⟩
  case regions =>
    exact fun v target format sampleSize e _ ha h => Viewer.endsCall_of_decodeRegion ha h
  case kept =>
    intro v hv
    exact ⟨Holding.viewer?_of_calls hv (d := .decode rect o stop) trivial,
      fun target => Holding.viewer?_of_calls hv (d := .decodeInto rect o target stop) trivial⟩
  case apart => exact fun l e h => h.not_endsCall

theorem Error.phases_end_apart_of_dot :
    let l : Limits := { Limits.none with sourceBytes := some 23, regionBytes := some 3 }
    (Error.sourceUnreadable .badDescriptor).isOpenFailure = true ∧
      (Error.limitExceeded ⟨.sourceBytes, 24, 23⟩).EndsOpening l ∧
      (Error.limitExceeded ⟨.regionBytes, 4, 3⟩).EndsCall ∧
      (Error.unknownHandle ⟨2⟩).EndsCall := by
  intro l
  let held : Holding := .shelved (Catalogue.empty.insert (Viewer.dot.limited l)).2 ⟨1⟩
  let broken : Supply := .held { Stream.ofBytes #[] with seekFault := some .badDescriptor }
  have hbroken : broken.viewer .standard = .error (.error (.sourceUnreadable .badDescriptor)) := rfl
  have hopen : (Viewer.openStream (.ofBytes Viewer.dotBytes) (Config.standard.limited l)).1 =
      .error (.error (.limitExceeded ⟨.sourceBytes, 24, 23⟩)) := rfl
  have hc : Viewer.dot.image.bounds.intersect? ⟨0, 0, 1, 1⟩ = some ⟨0, 0, 1, 1⟩ := by decide
  have hasks : Viewer.dot.image.Asks ⟨0, 0, 1, 1⟩ .standard .never 4 :=
    ⟨by decide, rfl, _, hc, by decide⟩
  have hexcess : Charge.excess? l ⟨.regionBytes, 4⟩ = some ⟨.regionBytes, 4, 3⟩ := rfl
  have hrefuses : held.Refuses ⟨0, 0, 1, 1⟩ .standard .never ⟨.regionBytes, 4, 3⟩ :=
    Viewer.refuses_of_excess (v := Viewer.dot) (g := Viewer.dot.image.feed) (a := .heap)
      rfl hasks hexcess
  have hheap : Allocator.heap.OnlyRunsOut := by
    intro bytes e h
    unfold Allocator.heap at h
    dsimp only at h
    split at h
    · cases h
      exact ⟨bytes, rfl⟩
    · cases h
  obtain ⟨hfailed, _⟩ := phases_end_apart broken .standard held ⟨0, 0, 1, 1⟩ .standard .never
  obtain ⟨_, hstream, hcalls, _⟩ := phases_end_apart (.bytes (.ofBytes Viewer.dotBytes))
    (Config.standard.limited l) held ⟨0, 0, 1, 1⟩ .standard .never
  obtain ⟨_, _, hmissing, _⟩ := phases_end_apart broken .standard
    (.shelved .empty ⟨2⟩) ⟨0, 0, 1, 1⟩ .standard .never
  refine ⟨(hfailed _ hbroken).1 (fun limit _ => by cases limit <;> rfl) ?_, hstream _ _ hopen, ?_,
    ?_⟩
  · exact fun ⟨_, _, hasset, _⟩ => Supply.noConfusion hasset
  · refine (hcalls ?_).1 _ (congrArg Decoding.result hrefuses.1)
    intro v hv
    cases hv
    exact hheap
  · have hnone (v : Viewer) : ¬(Holding.shelved .empty ⟨2⟩).viewer? = some v := nofun
    exact (hmissing fun v hv => absurd hv (hnone v)).1 _ rfl

theorem Error.openings_end_unnoticed :
    let l : Limits := { Limits.none with width := some 0 }
    let cap : Error := .limitExceeded ⟨.width, 1, 0⟩
    let memory : Error := .outOfMemory Allocator.addressable
    (Viewer.openStream (.ofBytes Viewer.dotBytes) (Config.standard.limited l)).1 =
        .error (.error cap) ∧
      (Supply.asset (.ofBytes #[]) Allocator.addressable).viewer .standard =
        .error (.error memory) ∧
      cap.isOpenFailure = false ∧ memory.isOpenFailure = false := by
  intro l cap memory
  have hopen : (Viewer.openStream (.ofBytes Viewer.dotBytes) Config.standard.unlimited).1 =
      .ok Viewer.dot := congrArg Prod.fst Viewer.openStream_dot
  have hgate : (Viewer.openStream (.ofBytes Viewer.dotBytes) (Config.standard.limited l)).1 =
      Charge.gate l (Viewer.dot.charges 24) (Viewer.dot.limited l) :=
    Viewer.openStream_eq_gate hopen
  exact ⟨hgate, rfl, rfl, rfl⟩

end ImageRegion
