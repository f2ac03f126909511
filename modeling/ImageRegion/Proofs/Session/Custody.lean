import ImageRegion.Proofs.Session.Moves
import ImageRegion.Session.Run

namespace ImageRegion

def Step.order? : Step → Option Order
  | .openImage _ order | .openInStages _ order _ _ | .openEntry _ _ order => some order
  | _ => none

/-- What happens to a stream within the step is nothing to the mark. -/
def Step.Leaves (mark : Stream → Bool) (step : Step) : Prop :=
  ∀ order, step.order? = some order → ∀ t, mark (order.between t) = mark t

def Answer.failure? : Answer → Option Failure
  | .failed failure | .staged _ (.error failure) => some failure
  | _ => none

namespace Session

variable {mark : Stream → Bool} {s t : Session} {given gone : List Stream}

theorem Moves.withNamed {α : Type} {value : Option α} {f : α → Reply × Session}
    (hnone : value = none → s.Moves mark t given gone)
    (hsome : ∀ a, value = some a → s.Moves mark (f a).2 given gone) :
    s.Moves mark (t.withNamed value f).2 given gone := by
  cases value with
  | none => exact hnone rfl
  | some a => exact hsome a rfl

section Recatalogued

theorem given?_keepCatalogue (s : Session) (c : Catalogue) (shelf : Shelf) (order : Order) :
    (s.keepCatalogue c shelf).given? order = s.given? order := by
  unfold given? configure
  cases order.account <;> cases shelf <;> rfl

theorem catalogue_keepCatalogue (s : Session) (c : Catalogue) (shelf : Shelf) :
    (s.keepCatalogue c shelf).catalogue shelf = c := by
  refine catalogue_of_some ?_
  cases shelf with
  | shared => rfl
  | named name => exact Names.get?_keep_self _ _ _

theorem handle?_keepCatalogue (s : Session) (c : Catalogue) (shelf : Shelf) (grip : Grip) :
    (s.keepCatalogue c shelf).handle? grip = s.handle? grip := by
  cases shelf <;> rfl

theorem viewers_keepCatalogue (s : Session) (c : Catalogue) (shelf : Shelf) :
    (s.keepCatalogue c shelf).viewers = s.viewers := by
  cases shelf <;> rfl

end Recatalogued

def held? (s : Session) (shelf : Shelf) (grip : Grip) : Option Viewer :=
  (s.handle? grip).bind (s.catalogue shelf).get?

/-- The image that has the next handle of a catalogue, from before handles started over. -/
def displaced? (s : Session) (shelf : Shelf) : Option Viewer :=
  (s.catalogue shelf).get? ⟨(s.catalogue shelf).next⟩

def handed (s : Session) (step : Step) : List Stream := (step.order?.bind s.given?).toList

theorem eq_error_of_answer {result : Except Failure Viewer} {failure : Failure}
    (h : (ofFailure (result.map .opened)).failure? = some failure) : result = .error failure := by
  cases result with
  | error failure' => cases h; rfl
  | ok v => cases h

theorem eq_error_of_staged {stages : Option Stages} {result : Except Failure Viewer}
    {failure : Failure} (h : (Answer.staged stages result).failure? = some failure) :
    result = .error failure := by
  cases result with
  | error failure' => cases h; rfl
  | ok v => cases h

section Steps

variable (h : s.Tidy)

include h

theorem Tidy.moves_recatalogue (shelf : Shelf) :
    s.Moves mark (s.keepCatalogue (s.catalogue shelf) shelf) [] [] :=
  h.moves_keepCatalogue (h.catalogue shelf) rfl

theorem Tidy.moves_stepClose (name : String) :
    s.Moves mark (s.step (.close name)).2 [] ((s.viewers.get? name).map Viewer.stream).toList := by
  refine Moves.withNamed (fun hv => ?_) (fun v hv => ?_)
  · rw [hv]
    exact h.stays
  · rw [hv]
    exact h.moves_close hv

theorem Tidy.moves_stepRelease (shelf : Shelf) (grip : Grip) :
    s.Moves mark (s.step (.releaseEntry shelf grip)).2 []
      ((s.held? shelf grip).map Viewer.stream).toList := by
  have hkept : s.Moves mark _ [] [] := h.moves_recatalogue shelf
  refine Moves.withNamed (fun hhandle => ?_) (fun handle hhandle => ?_) <;>
    rw [handle?_keepCatalogue] at hhandle <;> unfold held? <;> rw [hhandle]
  · exact hkept
  · rw [Option.bind_some]
    cases hv : (s.catalogue shelf).get? handle with
    | none =>
      have hunknown : (s.keepCatalogue (s.catalogue shelf) shelf).releaseEntry shelf handle =
          .error (.unknownHandle handle) := by
        rw [releaseEntry, catalogue_keepCatalogue, Catalogue.release, hv]
        rfl
      rw [hunknown]
      exact hkept
    | some v =>
      rw [← s.catalogue_keepCatalogue (s.catalogue shelf) shelf] at hv
      obtain ⟨events, t, hreleased, hmoves⟩ := hkept.tidy.moves_releaseEntry mark hv
      rw [hreleased]
      exact hmoves.after hkept

theorem Tidy.moves_transfer {name : String} {v : Viewer} (hv : s.viewers.get? name = some v)
    (shelf : Shelf) (keepAs : String) :
    s.Moves mark ((s.dropViewer name).insertEntry shelf keepAs v).2.2 []
      ((s.displaced? shelf).map Viewer.stream).toList := by
  obtain ⟨hdropped, hcount⟩ := h.dropViewer mark hv
  have hsame : (s.dropViewer name).catalogue shelf = s.catalogue shelf := by cases shelf <;> rfl
  obtain ⟨htidy, hreleased, hbalance⟩ : Moves mark _ _ _ _ :=
    hdropped.moves_insertEntry shelf keepAs v
  rw [hsame] at hreleased hbalance
  refine ⟨htidy, hreleased, ?_⟩
  rw [countP_stream, countP_owned mark (s.dropViewer name), hcount] at hbalance
  rw [countP_owned mark s]
  exact hbalance

theorem Tidy.moves_stepInsert (shelf : Shelf) (keepAs name : String) :
    s.Moves mark (s.step (.insertEntry shelf keepAs name)).2 []
      (((s.viewers.get? name).bind fun _ => s.displaced? shelf).map Viewer.stream).toList := by
  have hkept : s.Moves mark _ [] [] := h.moves_recatalogue shelf
  refine Moves.withNamed (fun hv => ?_) (fun v hv => ?_)
  · rw [viewers_keepCatalogue] at hv
    rw [hv]
    exact hkept
  · have hnext : (s.keepCatalogue (s.catalogue shelf) shelf).displaced? shelf =
        s.displaced? shelf := by
      unfold displaced?
      rw [catalogue_keepCatalogue]
    have hmoves : Moves mark _ _ _ _ := hkept.tidy.moves_transfer hv shelf keepAs
    rw [viewers_keepCatalogue] at hv
    rw [hv, Option.bind_some, ← hnext]
    exact hmoves.after hkept

theorem Tidy.moves_stepOpen (hmark : Stream.IsMark mark) {step : Step} {order : Order}
    (horder : step.order? = some order) :
    (∀ failure, (s.step step).1.answer.failure? = some failure →
      s.Moves mark (s.step step).2 (s.given? order).toList (s.given? order).toList) ∧
    ((∀ t, mark (order.between t) = mark t) →
      ∃ gone, s.Moves mark (s.step step).2 (s.given? order).toList gone) := by
  cases step with
  | openImage name order' =>
    cases horder
    obtain ⟨hrefused, hmoves⟩ := h.moves_openImage hmark onStream_plain name order
    exact ⟨fun failure hfailure => hrefused failure (eq_error_of_answer hfailure), hmoves⟩
  | openInStages name order' width height =>
    cases horder
    obtain ⟨hrefused, hmoves⟩ :=
      h.moves_openImage hmark (onStream_inStages width height) name order
    exact ⟨fun failure hfailure => hrefused failure (eq_error_of_staged hfailure), hmoves⟩
  | openEntry shelf keepAs order' =>
    cases horder
    have hkept : s.Moves mark _ [] [] := h.moves_recatalogue shelf
    rw [← s.given?_keepCatalogue (s.catalogue shelf) shelf]
    unfold step
    dsimp only
    rcases hkept.tidy.moves_attempt hmark onStream_plain none order with
      ⟨failure, hresult, hmoves⟩ | ⟨v, hresult, hmoves, hcount⟩ <;> rw [hresult]
    · exact ⟨fun _ _ => hmoves.after hkept, fun _ => ⟨_, hmoves.after hkept⟩⟩
    · refine ⟨nofun, fun hbetween => ?_⟩
      have hinserted := (hmoves.tidy.moves_insertEntry shelf keepAs v).after hmoves
      exact ⟨_, (hinserted.of_given (hcount hbetween)).after hkept⟩
  | _ => cases horder

theorem Tidy.moves_withNamed {α : Type} {value : Option α} {f : α → Reply × Session}
    (hf : ∀ a, value = some a → s.Moves mark (f a).2 [] []) :
    s.Moves mark (s.withNamed value f).2 [] [] :=
  .withNamed (fun _ => h.stays) hf

theorem Tidy.moves_changeFile (hmark : Stream.IsMark mark) (name : String)
    (change : Content → Content) : s.Moves mark (s.changeFile name change).2 [] [] :=
  h.moves_withNamed fun _ _ => h.moves_keepFile hmark _ _

theorem Tidy.moves_changeBitmap (name : String) (change : Bitmap → Bitmap)
    (answer : Bitmap → Answer) : s.Moves mark (s.changeBitmap name change answer).2 [] [] :=
  h.moves_withNamed fun _ _ => h.stays.of_eq rfl rfl rfl rfl

theorem Tidy.moves_askCatalogue (shelf : Shelf) (grip : Grip)
    (ask : Catalogue → Handle → Except Error Nat) :
    s.Moves mark (s.askCatalogue shelf grip ask).2 [] [] :=
  .withNamed (fun _ => h.moves_recatalogue shelf) fun _ _ => h.moves_recatalogue shelf

theorem Tidy.moves_step (hmark : Stream.IsMark mark) {step : Step} (hleaves : step.Leaves mark) :
    ∃ gone, s.Moves mark (s.step step).2 (s.handed step) gone := by
  cases step with
  | openImage name order => exact (h.moves_stepOpen hmark rfl).2 (hleaves order rfl)
  | openInStages name order width height =>
    exact (h.moves_stepOpen hmark rfl).2 (hleaves order rfl)
  | describe name => exact ⟨[], h.moves_withNamed fun _ _ => h.stays⟩
  | close name => exact ⟨_, h.moves_stepClose name⟩
  | decode job => exact ⟨[], h.moves_withNamed fun _ hd => h.moves_decode hmark hd⟩
  | makeToken name => exact ⟨[], h.stays.of_eq rfl rfl rfl rfl⟩
  | cloneToken name source =>
    exact ⟨[], h.moves_withNamed fun _ _ => h.stays.of_eq rfl rfl rfl rfl⟩
  | raiseToken name =>
    exact ⟨[], h.moves_withNamed fun _ _ => h.stays.of_eq rfl rfl rfl rfl⟩
  | readToken name => exact ⟨[], h.moves_withNamed fun _ _ => h.stays⟩
  | readAccount name => exact ⟨[], h.moves_withNamed fun _ _ => h.stays⟩
  | countReleased => exact ⟨[], h.stays⟩
  | ownerOffset name => exact ⟨[], h.moves_withNamed fun _ _ => h.stays⟩
  | truncateFile name size => exact ⟨[], h.moves_changeFile hmark name _⟩
  | writeFile name start bytes => exact ⟨[], h.moves_changeFile hmark name _⟩
  | makeBitmap name width height format =>
    refine ⟨[], ?_⟩
    unfold step
    dsimp only
    split
    · exact h.stays
    · exact h.stays.of_eq rfl rfl rfl rfl
  | readBitmap name => exact ⟨[], h.moves_withNamed fun _ _ => h.stays⟩
  | writeBitmap name start bytes => exact ⟨[], h.moves_changeBitmap name _ _⟩
  | readRow name row => exact ⟨[], h.moves_withNamed fun _ _ => h.stays⟩
  | touchBitmap name => exact ⟨[], h.moves_changeBitmap name _ _⟩
  | viewBitmap name =>
    refine ⟨[], h.moves_withNamed fun b _ => ?_⟩
    split <;> exact h.stays
  | expandBitmap name => exact ⟨[], h.moves_withNamed fun _ _ => h.stays⟩
  | dismantleBitmap name =>
    exact ⟨[], h.moves_withNamed fun _ _ => h.stays.of_eq rfl rfl rfl rfl⟩
  | openEntry shelf keepAs order => exact (h.moves_stepOpen hmark rfl).2 (hleaves order rfl)
  | insertEntry shelf keepAs name => exact ⟨_, h.moves_stepInsert shelf keepAs name⟩
  | entryWidth shelf grip => exact ⟨[], h.moves_askCatalogue shelf grip _⟩
  | entryHeight shelf grip => exact ⟨[], h.moves_askCatalogue shelf grip _⟩
  | releaseEntry shelf grip => exact ⟨_, h.moves_stepRelease shelf grip⟩
  | countEntries shelf => exact ⟨[], h.moves_recatalogue shelf⟩

end Steps

def handedBy (s : Session) : List Step → List Stream
  | [] => []
  | step :: steps => s.handed step ++ (s.step step).2.handedBy steps

theorem Tidy.moves_run (hmark : Stream.IsMark mark) (h : s.Tidy) {steps : List Step}
    (hleaves : ∀ step ∈ steps, step.Leaves mark) :
    ∃ gone, s.Moves mark (s.run steps).2 (s.handedBy steps) gone := by
  -- Tidiness carries the induction: what is kept twice would lose two streams at once.
  induction steps generalizing s with
  | nil => exact ⟨[], h.stays⟩
  | cons step steps ih =>
    obtain ⟨gone, hstep⟩ := h.moves_step hmark (hleaves step (List.mem_cons_self ..))
    obtain ⟨gone', hrun⟩ :=
      ih hstep.tidy fun later hlater => hleaves later (List.mem_cons_of_mem _ hlater)
    exact ⟨gone' ++ gone, hstep.trans hrun⟩

theorem tidy_start : start.Tidy :=
  ⟨List.nodup_nil, List.nodup_nil, List.nodup_nil, fun _ h => (List.not_mem_nil h).elim⟩

/-- After any steps, as many streams have been released and are owned as have been given away, and
so it is with the streams that bear a mark: one that is alone with its mark has been released once,
or else one image owns it. A stream is released when its image does not open, when its image is
closed and when the handle of its image is released; a decode releases none. -/
theorem streams_are_owned_or_released (steps : List Step) :
    let s := (start.run steps).2
    let given := start.handedBy steps
    s.released.length + s.owned.length = given.length ∧
      ∀ mark, Stream.IsMark mark →
        ((∀ step ∈ steps, step.Leaves mark) →
          s.released.countP mark + s.owned.countP mark = given.countP mark ∧
            (given.countP mark = 1 →
              s.released.countP mark = 1 ∧ s.owned.countP mark = 0 ∨
                s.released.countP mark = 0 ∧ s.owned.countP mark = 1)) ∧
        (∀ step order failure, step.order? = some order →
          (s.step step).1.answer.failure? = some failure →
          s.Moves mark (s.step step).2 (s.handed step) (s.handed step)) ∧
        (∀ job, s.Moves mark (s.step (.decode job)).2 [] []) ∧
        (∀ name, s.Moves mark (s.step (.close name)).2 []
          ((s.viewers.get? name).map Viewer.stream).toList) ∧
        (∀ shelf keepAs name, s.Moves mark (s.step (.insertEntry shelf keepAs name)).2 []
          (((s.viewers.get? name).bind fun _ => s.displaced? shelf).map Viewer.stream).toList) ∧
        ∀ shelf grip, s.Moves mark (s.step (.releaseEntry shelf grip)).2 []
          ((s.held? shelf grip).map Viewer.stream).toList := by
  intro s given
  have hcounts (mark : Stream → Bool) (hmark : Stream.IsMark mark)
      (hleaves : ∀ step ∈ steps, step.Leaves mark) :
      s.released.countP mark + s.owned.countP mark = given.countP mark := by
    obtain ⟨gone, _, hreleased, hbalance⟩ := tidy_start.moves_run hmark hleaves
    have hgone : s.released = gone := hreleased.trans (List.append_nil gone)
    rw [hgone, Nat.add_comm, hbalance]
    exact Nat.zero_add _
  have hall : ∀ step ∈ steps, step.Leaves fun _ => true := fun _ _ _ _ _ => rfl
  obtain ⟨_, htidy, _⟩ := tidy_start.moves_run Stream.isMark_true hall
  refine ⟨?length, fun mark hmark => ⟨fun hleaves => ⟨hcounts mark hmark hleaves, ?alone⟩,
    ?refused, ?decode, htidy.moves_stepClose, htidy.moves_stepInsert, htidy.moves_stepRelease⟩⟩
  case length =>
    have hboth := hcounts _ Stream.isMark_true hall
    simpa only [List.countP_true] using hboth
  case alone =>
    intro halone
    have hboth := hcounts mark hmark hleaves
    omega
  case refused =>
    intro step order failure horder hfailure
    rw [handed, horder]
    exact (htidy.moves_stepOpen hmark horder).1 failure hfailure
  case decode =>
    exact fun job => htidy.moves_withNamed fun _ hd => htidy.moves_decode hmark hd

theorem streams_are_owned_or_released_of_reader :
    let bytes : Array UInt8 := "P5 1 1 255 ~".toUTF8.data
    let broken : Stream :=
      { Stream.ofBytes bytes with medium := .reader, seekFault := some .invalidArgument }
    let order (supply : Supply) : Order := ⟨supply, .none, Config.standardTileSize, none, id⟩
    let opening : Step := .openImage "reader" (order (.held broken))
    let steps : List Step :=
      [.openEntry .shared "dot" (order (.bytes (.ofBytes bytes))), opening]
    let mark : Stream → Bool := fun t => t.medium = .reader
    let s := (start.run steps).2
    Stream.IsMark mark ∧ (∀ step ∈ steps, step.Leaves mark) ∧
      (start.handedBy steps).countP mark = 1 ∧
      opening.order? = some (order (.held broken)) ∧
      (s.step opening).1.answer.failure? =
        some (.error (.sourceUnreadable .invalidArgument)) ∧
      s.released.length + s.owned.length = 2 ∧
      (s.released.countP mark = 1 ∧ s.owned.countP mark = 0 ∨
        s.released.countP mark = 0 ∧ s.owned.countP mark = 1) ∧
      (s.step opening).2.released = broken :: s.released := by
  intro bytes broken order opening steps mark s
  have hmark : Stream.IsMark mark := by
    refine ⟨fun _ _ => rfl, fun t file => ?_⟩
    unfold mark Stream.follow
    split
    · split <;> rfl
    · rfl
  have hleaves : ∀ step ∈ steps, step.Leaves mark := by
    intro step hstep given horder t
    simp only [steps, List.mem_cons, List.not_mem_nil, or_false] at hstep
    rcases hstep with rfl | rfl <;> cases horder <;> rfl
  have hgiven : start.handedBy steps = [.ofBytes bytes, broken] := rfl
  have halone : (start.handedBy steps).countP mark = 1 := by
    rw [hgiven]
    decide
  have hfailure : (s.step opening).1.answer.failure? =
      some (.error (.sourceUnreadable .invalidArgument)) := rfl
  obtain ⟨hlength, hmoves⟩ := streams_are_owned_or_released steps
  obtain ⟨hcounts, hrefused, _⟩ := hmoves mark hmark
  refine ⟨hmark, hleaves, halone, rfl, hfailure, hlength, (hcounts hleaves).2 halone, ?_⟩
  exact (hrefused opening _ _ rfl hfailure).released

end Session

end ImageRegion
