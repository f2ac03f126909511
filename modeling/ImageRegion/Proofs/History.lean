import ImageRegion.Proofs.Catalogue
import ImageRegion.Proofs.Image.Agreement

/-!
Histories of an opened image. Whatever was done with it before, and however that ended, the next
decode comes to what it would have come to as the first.
-/

namespace ImageRegion

/-- How an opened image is held: by itself, or through a handle of a catalogue. -/
inductive Holding
  | owned (viewer : Viewer)
  | shelved (catalogue : Catalogue) (handle : Handle)

inductive Deed
  | decode (rect : Rect) (o : Options) (stop : Stop)
  | decodeInto (rect : Rect) (o : Options) (target : Bitmap) (stop : Stop)
  | shelve (catalogue : Catalogue)
  /-- The source changes, or a call on it leaves the cursor and the buffer in any other state. -/
  | disturb (change : Feed → Feed)
  | reallot (allot : Nat → Allotment)

def Deed.IsCall : Deed → Prop
  | .decode .. | .decodeInto .. | .shelve _ => True
  | .disturb _ | .reallot _ => False

def Viewer.fedBy (v : Viewer) (feed : Feed) (allocator : Allocator) : Viewer :=
  { v with image := v.image.fedBy feed allocator }

namespace Holding

def viewer? : Holding → Option Viewer
  | owned v => some v
  | shelved c h => c.get? h

def decode (held : Holding) (rect : Rect) (o : Options) (stop : Stop) :
    Decoding (Bitmap × Region) × Holding :=
  match held with
  | owned v =>
    let (decoding, v) := v.decode rect o stop
    (decoding, owned v)
  | shelved c h =>
    let (decoding, c) := c.decode h rect o stop
    (decoding, shelved c h)

def decodeInto (held : Holding) (rect : Rect) (o : Options) (target : Bitmap) (stop : Stop) :
    Decoding Region × Bitmap × Holding :=
  match held with
  | owned v =>
    let (decoding, target, v) := v.decodeInto rect o target stop
    (decoding, target, owned v)
  | shelved c h =>
    let (decoding, target, c) := c.decodeInto h rect o target stop
    (decoding, target, shelved c h)

def amend (held : Holding) (change : Viewer → Viewer) : Holding :=
  match held with
  | owned v => owned (change v)
  | shelved c h =>
    match c.get? h with
    | none => shelved c h
    | some v => shelved (c.update h (change v) false) h

def shelve (held : Holding) (c : Catalogue) : Holding :=
  match held with
  | owned v =>
    let (h, c) := c.insert v
    shelved c h
  | shelved c h => shelved c h

def perform (held : Holding) : Deed → Holding
  | .decode rect o stop => (held.decode rect o stop).2
  | .decodeInto rect o target stop => (held.decodeInto rect o target stop).2.2
  | .shelve c => held.shelve c
  | .disturb change => held.amend fun v => v.fedBy (change v.image.feed) v.image.allocator
  | .reallot allot => held.amend fun v => v.fedBy v.image.feed { v.image.allocator with allot }

def after (held : Holding) (deeds : List Deed) : Holding := deeds.foldl perform held

variable {held : Holding} {v : Viewer}

theorem decode_of_viewer? (hv : held.viewer? = some v) (rect : Rect) (o : Options)
    (stop : Stop) : (held.decode rect o stop).1 = (v.decode rect o stop).1 ∧
      (held.decode rect o stop).2.viewer? = some (v.decode rect o stop).2 := by
  cases held with
  | owned w =>
    cases hv
    exact ⟨rfl, rfl⟩
  | shelved c h => exact Catalogue.decode_of_get? hv rect o stop

theorem decodeInto_of_viewer? (hv : held.viewer? = some v) (rect : Rect) (o : Options)
    (target : Bitmap) (stop : Stop) :
    (held.decodeInto rect o target stop).1 = (v.decodeInto rect o target stop).1 ∧
      (held.decodeInto rect o target stop).2.1 = (v.decodeInto rect o target stop).2.1 ∧
      (held.decodeInto rect o target stop).2.2.viewer? =
        some (v.decodeInto rect o target stop).2.2 := by
  cases held with
  | owned w =>
    cases hv
    exact ⟨rfl, rfl, rfl⟩
  | shelved c h => exact Catalogue.decodeInto_of_get? hv rect o target stop

theorem viewer?_amend (hv : held.viewer? = some v) (change : Viewer → Viewer) :
    (held.amend change).viewer? = some (change v) := by
  cases held with
  | owned w =>
    cases hv
    rfl
  | shelved c h =>
    have hv : c.get? h = some v := hv
    simp only [amend, hv]
    exact Catalogue.get?_update hv _ _

theorem viewer?_shelve (hv : held.viewer? = some v) (c : Catalogue) :
    (held.shelve c).viewer? = some v := by
  cases held with
  | owned w =>
    cases hv
    exact c.get?_insert v
  | shelved c h => exact hv

theorem viewer?_perform {f : Feed} {a : Allocator} (hv : held.viewer? = some (v.fedBy f a))
    (d : Deed) : ∃ f' a', (held.perform d).viewer? = some (v.fedBy f' a') ∧
      (d.IsCall → f'.stream.answers = f.stream.answers ∧ a' = a) := by
  cases d with
  | decode rect o stop =>
    obtain ⟨f', hf, hd⟩ := (v.fedBy f a).image.decode_keeps rect o stop
    refine ⟨f', a, ?_, fun _ => ⟨hf, rfl⟩⟩
    refine (decode_of_viewer? hv rect o stop).2.trans ?_
    show some { v.fedBy f a with image := ((v.fedBy f a).image.decode rect o stop).2 } = _
    rw [hd]
    rfl
  | decodeInto rect o target stop =>
    obtain ⟨f', hf, hd⟩ := (v.fedBy f a).image.decodeInto_keeps rect o target stop
    refine ⟨f', a, ?_, fun _ => ⟨hf, rfl⟩⟩
    refine (decodeInto_of_viewer? hv rect o target stop).2.2.trans ?_
    show some { v.fedBy f a with
      image := ((v.fedBy f a).image.decodeInto rect o target stop).2.2 } = _
    rw [hd]
    rfl
  | shelve c => exact ⟨f, a, viewer?_shelve hv c, fun _ => ⟨rfl, rfl⟩⟩
  | disturb change => exact ⟨change f, a, viewer?_amend hv _, False.elim⟩
  | reallot allot => exact ⟨f, { a with allot }, viewer?_amend hv _, False.elim⟩

theorem viewer?_of_calls (hv : held.viewer? = some v) {d : Deed} (hd : d.IsCall) :
    ∃ f : Feed, (held.perform d).viewer? = some (v.fedBy f v.image.allocator) := by
  have hv : held.viewer? = some (v.fedBy v.image.feed v.image.allocator) := hv
  obtain ⟨f, a, hafter, hcall⟩ := viewer?_perform hv d
  obtain ⟨_, rfl⟩ := hcall hd
  exact ⟨f, hafter⟩

theorem viewer?_after {f : Feed} {a : Allocator} (hv : held.viewer? = some (v.fedBy f a))
    (deeds : List Deed) : ∃ f' a', (held.after deeds).viewer? = some (v.fedBy f' a') ∧
      ((∀ d ∈ deeds, d.IsCall) → f'.stream.answers = f.stream.answers ∧ a' = a) := by
  -- Only feed and allocator differ from the first viewer, so each deed starts from such a state.
  induction deeds generalizing held f a with
  | nil => exact ⟨f, a, hv, fun _ => ⟨rfl, rfl⟩⟩
  | cons d deeds ih =>
    obtain ⟨f₁, a₁, hv₁, hcall₁⟩ := viewer?_perform hv d
    obtain ⟨f₂, a₂, hv₂, hcall₂⟩ := ih hv₁
    refine ⟨f₂, a₂, hv₂, fun hall => ?_⟩
    obtain ⟨hf₁, ha₁⟩ := hcall₁ (hall d (List.mem_cons_self ..))
    obtain ⟨hf₂, ha₂⟩ := hcall₂ fun d hd => hall d (List.mem_cons_of_mem _ hd)
    exact ⟨hf₂.trans hf₁, ha₂.trans ha₁⟩

def Matches (held : Holding) (v : Viewer) (rect : Rect) (o : Options) (stop : Stop) : Prop :=
  (held.decode rect o stop).1 = (v.decode rect o stop).1

def MatchesInto (held : Holding) (v : Viewer) (rect : Rect) (o : Options) (stop : Stop) : Prop :=
  ∀ target, (held.decodeInto rect o target stop).1 = (v.decodeInto rect o target stop).1 ∧
    (held.decodeInto rect o target stop).2.1 = (v.decodeInto rect o target stop).2.1

/-- Both come to the same for a request, fresh or into any bitmap, and so does the bitmap. -/
def Concurs (held held' : Holding) (rect : Rect) (o : Options) (stop : Stop) : Prop :=
  (held.decode rect o stop).1 = (held'.decode rect o stop).1 ∧
    ∀ target, (held.decodeInto rect o target stop).1 = (held'.decodeInto rect o target stop).1 ∧
      (held.decodeInto rect o target stop).2.1 = (held'.decodeInto rect o target stop).2.1

theorem concurs_of_viewer? {held' : Holding} {w : Viewer} {rect : Rect} {o : Options} {stop : Stop}
    (hv : held.viewer? = some v) (hw : held'.viewer? = some w)
    (h : (owned v).Concurs (owned w) rect o stop) : held.Concurs held' rect o stop := by
  obtain ⟨hfresh, hinto⟩ := h
  constructor
  · rw [(decode_of_viewer? hv rect o stop).1, (decode_of_viewer? hw rect o stop).1]
    exact hfresh
  · intro target
    obtain ⟨hd, ht, _⟩ := decodeInto_of_viewer? hv rect o target stop
    obtain ⟨hd', ht', _⟩ := decodeInto_of_viewer? hw rect o target stop
    rw [hd, ht, hd', ht']
    exact hinto target

theorem Concurs.symm {held' : Holding} {rect : Rect} {o : Options} {stop : Stop}
    (h : held.Concurs held' rect o stop) : held'.Concurs held rect o stop :=
  ⟨h.1.symm, fun target => ⟨(h.2 target).1.symm, (h.2 target).2.symm⟩⟩

theorem Concurs.trans {held' held'' : Holding} {rect : Rect} {o : Options} {stop : Stop}
    (h : held.Concurs held' rect o stop) (h' : held'.Concurs held'' rect o stop) :
    held.Concurs held'' rect o stop := by
  refine ⟨h.1.trans h'.1, fun target => ?_⟩
  obtain ⟨hd, ht⟩ := h.2 target
  obtain ⟨hd', ht'⟩ := h'.2 target
  exact ⟨hd.trans hd', ht.trans ht'⟩

theorem concurs_fedBy {f : Feed} {rect : Rect} {o : Options} (stop : Stop)
    (hf : ∀ c, v.image.bounds.intersect? rect = some c →
      v.image.index.Agree c f.stream v.image.feed.stream) :
    (owned (v.fedBy f v.image.allocator)).Concurs (owned v) rect o stop := by
  constructor
  · exact Image.decode_fedBy fun c hc => ⟨hf c hc, rfl⟩
  · exact Image.decodeInto_fedBy v.image.allocator stop hf

theorem concurs_after {deeds : List Deed} (hcalls : ∀ d ∈ deeds, d.IsCall) (rect : Rect)
    (o : Options) (stop : Stop) : ((owned v).after deeds).Concurs (owned v) rect o stop := by
  have hstart : (owned v).viewer? = some (v.fedBy v.image.feed v.image.allocator) := rfl
  obtain ⟨f, a, hnow, hkept⟩ := viewer?_after hstart deeds
  obtain ⟨hf, rfl⟩ := hkept hcalls
  apply concurs_of_viewer? hnow rfl
  apply concurs_fedBy
  intro c _ j _ _
  rw [Stream.answers_turned, Stream.answers_turned, hf]

theorem decode_forgets (v : Viewer) (deeds : List Deed) :
    ∃ now, ((owned v).after deeds).viewer? = some now ∧
      (now.width = v.width ∧ now.height = v.height ∧ now.encoding = v.encoding ∧
        now.image.width = v.image.width ∧ now.image.height = v.image.height ∧
        now.image.index.nativeFormat = v.image.index.nativeFormat) ∧
      (∀ rect o stop,
        (∀ c, v.image.bounds.intersect? rect = some c →
          v.image.index.Agree c now.image.feed.stream v.image.feed.stream) →
        ((owned v).after deeds).MatchesInto v rect o stop ∧
        ((∀ c, v.image.bounds.intersect? rect = some c →
          now.image.allocator.allot (v.image.regionOf c o).byteLength =
            v.image.allocator.allot (v.image.regionOf c o).byteLength) →
          ((owned v).after deeds).Matches v rect o stop)) ∧
      ((∀ d ∈ deeds, d.IsCall) → ∀ rect o stop,
        ((owned v).after deeds).Matches v rect o stop ∧
          ((owned v).after deeds).MatchesInto v rect o stop) := by
  have hstart : (owned v).viewer? = some (v.fedBy v.image.feed v.image.allocator) := rfl
  obtain ⟨f, a, hnow, hcalls⟩ := viewer?_after hstart deeds
  have hinto (rect : Rect) (o : Options) (stop : Stop)
      (ha : ∀ c, v.image.bounds.intersect? rect = some c →
        v.image.index.Agree c f.stream v.image.feed.stream) :
      ((owned v).after deeds).MatchesInto v rect o stop := by
    intro target
    obtain ⟨hd, ht, _⟩ := decodeInto_of_viewer? hnow rect o target stop
    obtain ⟨hd', ht'⟩ := Image.decodeInto_fedBy a stop (o := o) ha target
    exact ⟨hd.trans hd', ht.trans ht'⟩
  have hfresh (rect : Rect) (o : Options) (stop : Stop)
      (ha : ∀ c, v.image.bounds.intersect? rect = some c →
        v.image.index.Agree c f.stream v.image.feed.stream ∧
          a.allot (v.image.regionOf c o).byteLength =
            v.image.allocator.allot (v.image.regionOf c o).byteLength) :
      ((owned v).after deeds).Matches v rect o stop :=
    (decode_of_viewer? hnow rect o stop).1.trans (Image.decode_fedBy ha)
  refine ⟨v.fedBy f a, hnow, ⟨rfl, rfl, rfl, rfl, rfl, rfl⟩, ?_, ?_⟩
  · intro rect o stop ha
    refine ⟨hinto rect o stop ha, fun hallot => ?_⟩
    exact hfresh rect o stop fun c hc => ⟨ha c hc, hallot c hc⟩
  · intro hall rect o stop
    obtain ⟨hf, rfl⟩ := hcalls hall
    have hagree (c : Rect) : v.image.index.Agree c f.stream v.image.feed.stream := by
      intro j _ _
      rw [Stream.answers_turned, Stream.answers_turned, hf]
    exact ⟨hfresh rect o stop fun c _ => ⟨hagree c, rfl⟩, hinto rect o stop fun c _ => hagree c⟩

theorem decode_forgets_giving_up :
    let v : Viewer := ⟨Image.stamp, 3, 2⟩
    ((owned v).after [
        .reallot fun _ => .abandoned "gave up",
        .decode ⟨0, 0, 3, 2⟩ .standard .never,
        .shelve .empty,
        .decode ⟨0, 0, 3, 2⟩ .standard .never,
        .decode ⟨0, 0, 3, 2⟩ .standard (.always .timedOut),
        .reallot Allocator.heap.allot,
        .disturb fun f => ⟨f.stream.turned 7, #[1, 2, 3]⟩]).Matches
      v ⟨1, 0, 3, 2⟩ .standard .never := by
  intro v
  obtain ⟨now, hnow, _, h, _⟩ := decode_forgets v [
    .reallot fun _ => .abandoned "gave up",
    .decode ⟨0, 0, 3, 2⟩ .standard .never,
    .shelve .empty,
    .decode ⟨0, 0, 3, 2⟩ .standard .never,
    .decode ⟨0, 0, 3, 2⟩ .standard (.always .timedOut),
    .reallot Allocator.heap.allot,
    .disturb fun f => ⟨f.stream.turned 7, #[1, 2, 3]⟩]
  obtain rfl := Option.some.inj hnow
  exact (h _ _ _ fun _ _ _ _ _ => rfl).2 fun _ _ => rfl

end Holding

end ImageRegion
