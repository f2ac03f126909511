import ImageRegion.Session.Run

namespace ImageRegion

inductive Step.Opens (name : String) (order : Order) : Step → Prop
  | whole : Opens name order (.openImage name order)
  | inStages (width height : Option Nat) : Opens name order (.openInStages name order width height)

namespace Session

variable {s t : Session} {name : String} {offset : Nat} {order : Order}

def OwnerAt (s : Session) (name : String) (offset : Nat) : Prop :=
  ∃ file, s.files.get? name = some file ∧ file.ownerOffset = offset

theorem files_keepCatalogue (s : Session) (c : Catalogue) (shelf : Shelf) :
    (s.keepCatalogue c shelf).files = s.files := by
  cases shelf <;> rfl

theorem files_configure (s : Session) (order : Order) : (s.configure order).2.files = s.files := by
  unfold configure
  cases order.account <;> rfl

def withSupply (s : Session) (opened : Option String) (supply : Supply) : Names File :=
  match opened, supply.file? with
  | some name, some file => s.files.keep name file
  | _, _ => s.files

theorem files_supply (s : Session) (opened : Option String) (order : Order) :
    (s.supply opened order).2.files = s.withSupply opened (order.supply.numbered s.unused) := by
  unfold supply withSupply
  cases opened with
  | none => rfl
  | some name =>
    dsimp only
    cases (order.supply.numbered s.unused).file? <;> rfl

theorem files_attempt (s : Session) (opened : Option String) (order : Order)
    (way : (Stream → Stream) → Stream → Config → Attempt) :
    ∃ number, (s.attempt opened order way).2.files =
      s.withSupply opened (order.supply.numbered number) := by
  have hconfigured := s.files_configure order
  refine ⟨(s.configure order).2.unused, ?_⟩
  unfold withSupply
  rw [← hconfigured]
  refine Eq.trans ?_ ((s.configure order).2.files_supply opened order)
  unfold attempt
  dsimp only
  split <;> rfl

theorem files_openImage (s : Session) (name : String) (order : Order)
    (way : (Stream → Stream) → Stream → Config → Attempt) :
    (s.openImage name order way).2.files = (s.attempt (some name) order way).2.files := by
  unfold openImage
  dsimp only
  split <;> rfl

theorem decodeFresh_files {subject : Subject} {rect : Rect} {o : Options} {stop : Stop}
    {d : Decoding (Bitmap × Region)}
    (h : s.decodeFresh subject rect o stop = some (d, t)) : t.files = s.files := by
  cases subject with
  | viewer name =>
    obtain ⟨v, _, h⟩ := Option.bind_eq_some_iff.mp h
    cases h
    rfl
  | entry shelf grip =>
    obtain ⟨c, _, h⟩ := Option.bind_eq_some_iff.mp h
    obtain ⟨handle, _, h⟩ := Option.bind_eq_some_iff.mp h
    cases h
    exact files_keepCatalogue _ _ _

theorem decodeInto_files {subject : Subject} {rect : Rect} {o : Options} {stop : Stop}
    {target after : Bitmap} {d : Decoding Region}
    (h : s.decodeInto subject rect o target stop = some (d, after, t)) : t.files = s.files := by
  cases subject with
  | viewer name =>
    obtain ⟨v, _, h⟩ := Option.bind_eq_some_iff.mp h
    cases h
    rfl
  | entry shelf grip =>
    obtain ⟨c, _, h⟩ := Option.bind_eq_some_iff.mp h
    obtain ⟨handle, _, h⟩ := Option.bind_eq_some_iff.mp h
    cases h
    exact files_keepCatalogue _ _ _

theorem perform_files {job : Job} {stop : Stop} {report : Report} {events : List Event}
    (h : s.perform job stop = some (report, events, t)) : t.files = s.files := by
  unfold perform at h
  split at h
  · obtain ⟨⟨d, s'⟩, hd, h⟩ := Option.bind_eq_some_iff.mp h
    cases h
    rw [← decodeFresh_files hd]
    split <;> rfl
  · obtain ⟨b, _, h⟩ := Option.bind_eq_some_iff.mp h
    obtain ⟨⟨d, after, s'⟩, hd, h⟩ := Option.bind_eq_some_iff.mp h
    cases h
    rw [← decodeInto_files hd]
    rfl

theorem decode_files {job : Job} {report : Report} {events : List Event}
    (h : s.decode job = some (report, events, t)) : t.files = s.files := by
  obtain ⟨flag, _, h⟩ := Option.bind_eq_some_iff.mp h
  obtain ⟨⟨report', events', s'⟩, hp, h⟩ := Option.bind_eq_some_iff.mp h
  rw [← perform_files hp]
  cases flag with
  | none =>
    cases h
    rfl
  | some flag =>
    cases h
    split <;> rfl

namespace OwnerAt

variable (h : s.OwnerAt name offset)

include h

theorem of_files (hfiles : t.files = s.files) : t.OwnerAt name offset := by
  unfold OwnerAt
  rw [hfiles]
  exact h

theorem withNamed {α : Type} {value : Option α} {f : α → Reply × Session}
    (hf : ∀ a, value = some a → (f a).2.OwnerAt name offset) :
    (s.withNamed value f).2.OwnerAt name offset := by
  cases value with
  | none => exact h
  | some a => exact hf a rfl

theorem withSupply {opened : Option String} (hopened : opened ≠ some name) (supply : Supply)
    (hfiles : t.files = s.withSupply opened supply) : t.OwnerAt name offset := by
  unfold OwnerAt
  rw [hfiles]
  unfold Session.withSupply
  split
  next other file _ =>
    have hne : name ≠ other := fun he => hopened (congrArg some he.symm)
    rw [Names.get?_keep_of_ne _ _ hne]
    exact h
  · exact h

theorem attempt {opened : Option String} (hopened : opened ≠ some name) (order : Order)
    (way : (Stream → Stream) → Stream → Config → Attempt) :
    (s.attempt opened order way).2.OwnerAt name offset := by
  obtain ⟨number, hfiles⟩ := s.files_attempt opened order way
  exact h.withSupply hopened _ hfiles

theorem openImage {other : String} (hother : name ≠ other) (order : Order)
    (way : (Stream → Stream) → Stream → Config → Attempt) :
    (s.openImage other order way).2.OwnerAt name offset := by
  have hopened : some other ≠ some name := fun he => hother (Option.some.inj he).symm
  exact (h.attempt hopened order way).of_files (s.files_openImage other order way)

theorem changeFile (other : String) (change : Content → Content) :
    (s.changeFile other change).2.OwnerAt name offset := by
  apply h.withNamed
  intro file hfile
  by_cases hother : name = other
  · subst hother
    obtain ⟨kept, hkept, hoffset⟩ := h
    rw [hkept] at hfile
    cases hfile
    exact ⟨_, Names.get?_keep_self _ _ _, hoffset⟩
  · obtain ⟨kept, hkept, hoffset⟩ := h
    exact ⟨kept, (Names.get?_keep_of_ne _ _ hother).trans hkept, hoffset⟩

theorem changeBitmap (other : String) (change : Bitmap → Bitmap) (answer : Bitmap → Answer) :
    (s.changeBitmap other change answer).2.OwnerAt name offset :=
  h.withNamed fun _ _ => h.of_files rfl

theorem insertEntry (shelf : Shelf) (keepAs : String) (v : Viewer) :
    (s.insertEntry shelf keepAs v).2.2.OwnerAt name offset :=
  h.of_files (s.files_keepCatalogue _ shelf)

theorem releaseEntry {shelf : Shelf} {handle : Handle} {events : List Event}
    (hr : s.releaseEntry shelf handle = .ok (events, t)) : t.OwnerAt name offset := by
  unfold Session.releaseEntry at hr
  cases hreleased : (s.catalogue shelf).release handle with
  | error error =>
    rw [hreleased] at hr
    cases hr
  | ok released =>
    rw [hreleased] at hr
    cases hr
    exact h.of_files (s.files_keepCatalogue _ shelf)

theorem askCatalogue (shelf : Shelf) (grip : Grip)
    (ask : Catalogue → Handle → Except Error Nat) :
    (s.askCatalogue shelf grip ask).2.OwnerAt name offset := by
  have hkept : (s.keepCatalogue (s.catalogue shelf) shelf).OwnerAt name offset :=
    h.of_files (s.files_keepCatalogue _ shelf)
  exact hkept.withNamed fun _ _ => hkept

theorem step {step : Step} (hopens : ∀ order, ¬step.Opens name order) :
    (s.step step).2.OwnerAt name offset := by
  have hkept (shelf : Shelf) : (s.keepCatalogue (s.catalogue shelf) shelf).OwnerAt name offset :=
    h.of_files (s.files_keepCatalogue _ shelf)
  cases step with
  | openImage other order =>
    apply h.openImage
    rintro rfl
    exact hopens order .whole
  | openInStages other order width height =>
    apply h.openImage
    rintro rfl
    exact hopens order (.inStages width height)
  | describe other => exact h.withNamed fun _ _ => h
  | close other => exact h.withNamed fun _ _ => h.of_files rfl
  | decode job => exact h.withNamed fun _ hd => h.of_files (decode_files hd)
  | makeToken other => exact h.of_files rfl
  | cloneToken other source => exact h.withNamed fun _ _ => h.of_files rfl
  | raiseToken other => exact h.withNamed fun _ _ => h.of_files rfl
  | readToken other => exact h.withNamed fun _ _ => h
  | readAccount other => exact h.withNamed fun _ _ => h
  | countReleased => exact h
  | ownerOffset other => exact h.withNamed fun _ _ => h
  | truncateFile other size => exact h.changeFile other _
  | writeFile other start bytes => exact h.changeFile other _
  | makeBitmap other width height format =>
    unfold Session.step
    dsimp only
    split
    · exact h
    · exact h.of_files rfl
  | readBitmap other => exact h.withNamed fun _ _ => h
  | writeBitmap other start bytes => exact h.changeBitmap other _ _
  | readRow other row => exact h.withNamed fun _ _ => h
  | touchBitmap other => exact h.changeBitmap other _ _
  | viewBitmap other =>
    apply h.withNamed
    intro b _
    split <;> exact h
  | expandBitmap other => exact h.withNamed fun _ _ => h
  | dismantleBitmap other => exact h.withNamed fun _ _ => h.of_files rfl
  | openEntry shelf keepAs order =>
    have hattempt := (hkept shelf).attempt (Option.some_ne_none name).symm order Attempt.plain
    unfold Session.step
    dsimp only
    split
    · exact hattempt
    · exact hattempt.insertEntry shelf keepAs _
  | insertEntry shelf keepAs other =>
    apply (hkept shelf).withNamed
    intro v _
    have hdropped : ((s.keepCatalogue (s.catalogue shelf) shelf).dropViewer other).OwnerAt name
        offset := (hkept shelf).of_files rfl
    exact hdropped.insertEntry shelf keepAs v
  | entryWidth shelf grip => exact h.askCatalogue shelf grip _
  | entryHeight shelf grip => exact h.askCatalogue shelf grip _
  | releaseEntry shelf grip =>
    apply (hkept shelf).withNamed
    intro handle _
    split
    · exact hkept shelf
    next hreleased => exact (hkept shelf).releaseEntry hreleased
  | countEntries shelf => exact hkept shelf

theorem run {steps : List Step} (hopens : ∀ step ∈ steps, ∀ order, ¬step.Opens name order) :
    (s.run steps).2.OwnerAt name offset := by
  induction steps generalizing s with
  | nil => exact h
  | cons step steps ih =>
    have hstep := h.step (hopens step (List.mem_cons_self ..))
    exact ih hstep fun later hlater => hopens later (List.mem_cons_of_mem _ hlater)

end OwnerAt

theorem ownerAt_of_opens {step : Step} {file : File} (hstep : step.Opens name order)
    (hfile : order.supply = .file file) : (s.step step).2.OwnerAt name file.ownerOffset := by
  have hopen (way : (Stream → Stream) → Stream → Config → Attempt) :
      (s.openImage name order way).2.OwnerAt name file.ownerOffset := by
    obtain ⟨number, hfiles⟩ := s.files_attempt (some name) order way
    rw [hfile] at hfiles
    refine ⟨{ file with number }, ?_, rfl⟩
    rw [files_openImage, hfiles]
    exact Names.get?_keep_self _ _ _
  cases hstep with
  | whole => exact hopen Attempt.plain
  | inStages width height => exact hopen (Attempt.inStages width height)

end Session

end ImageRegion
