import ImageRegion.Proofs.Verdict

/-!
Limits as gates. What opening an image and asking for a region of it cost is charged before anything
is made of it, and a charge that is over its cap ends the call. Nothing else depends on the caps.
-/

namespace ImageRegion

namespace Limits

def cap (l : Limits) : Limit → Option Nat
  | .sourceBytes => l.sourceBytes
  | .width => l.width
  | .height => l.height
  | .pixels => l.pixels
  | .indexBytes => l.indexBytes
  | .regionBytes => l.regionBytes

def RelaxesTo (l l' : Limits) : Prop :=
  ∀ limit, ∀ max' ∈ l'.cap limit, ∃ max ∈ l.cap limit, max ≤ max'

variable {l l' : Limits}

theorem RelaxesTo.admits (h : l.RelaxesTo l') {limit : Limit} {actual : Nat}
    (ha : Admits (l.cap limit) actual) : Admits (l'.cap limit) actual := by
  intro max' hmax'
  obtain ⟨max, hmax, hle⟩ := h limit max' hmax'
  exact Nat.le_trans (ha max hmax) hle

end Limits

structure Charge where
  limit : Limit
  actual : Nat

namespace Charge

variable {l l' : Limits} {α : Type}

def excess? (l : Limits) (c : Charge) : Option Excess :=
  match l.cap c.limit with
  | some max => if max < c.actual then some ⟨c.limit, c.actual, max⟩ else none
  | none => none

def gate (l : Limits) (charges : List Charge) (result : α) : Except Failure α :=
  match charges.findSome? (excess? l) with
  | some excess => .error (.error (.limitExceeded excess))
  | none => .ok result

theorem excess?_eq_none_iff {c : Charge} :
    c.excess? l = none ↔ Limits.Admits (l.cap c.limit) c.actual := by
  unfold excess? Limits.Admits
  cases l.cap c.limit with
  | none => simp
  | some max => simp

theorem gate_cons (c : Charge) (charges : List Charge) (result : α) :
    gate l (c :: charges) result =
      (Failure.raise (Limits.raise (Limits.check c.limit c.actual (l.cap c.limit))) >>=
        fun _ => gate l charges result) := by
  unfold gate Limits.check
  rw [List.findSome?_cons, excess?]
  cases l.cap c.limit with
  | none => rfl
  | some max => by_cases h : max < c.actual <;> simp only [h, if_true, if_false] <;> rfl

theorem gate_append (charges more : List Charge) (result : α) :
    gate l (charges ++ more) result = (gate l charges () >>= fun _ => gate l more result) := by
  unfold gate
  rw [List.findSome?_append]
  cases charges.findSome? (excess? l) <;> rfl

theorem gate_eq_bind (charges : List Charge) (result : α) :
    gate l charges result = (gate l charges () >>= fun _ => .ok result) := by
  have hsplit := gate_append (l := l) charges [] result
  rw [List.append_nil] at hsplit
  exact hsplit

theorem gate_eq_ok_iff {charges : List Charge} {result result' : α} :
    gate l charges result = .ok result' ↔
      (∀ c ∈ charges, Limits.Admits (l.cap c.limit) c.actual) ∧ result' = result := by
  have hnone : charges.findSome? (excess? l) = none ↔
      ∀ c ∈ charges, Limits.Admits (l.cap c.limit) c.actual := by
    simp only [List.findSome?_eq_none_iff, excess?_eq_none_iff]
  rw [← hnone]
  unfold gate
  cases charges.findSome? (excess? l) with
  | none => simp [eq_comm]
  | some excess => simp

theorem gate_relaxed (h : l.RelaxesTo l') {charges : List Charge} {result result' : α}
    (hg : gate l charges result = .ok result') (other : α) : gate l' charges other = .ok other := by
  obtain ⟨hadmits, _⟩ := gate_eq_ok_iff.mp hg
  exact gate_eq_ok_iff.mpr ⟨fun c hc => h.admits (hadmits c hc), rfl⟩

def ofSize (width height : Nat) : List Charge :=
  [⟨.width, width⟩, ⟨.height, height⟩, ⟨.pixels, width * height⟩]

def ofIndex (encoding : Encoding) (width height : Nat) : List Charge :=
  ofSize width height ++
    if encoding.hasRandomAccess then [] else [⟨.indexBytes, 4 * (width * height)⟩]

theorem gate_ofSize (width height : Nat) :
    gate l (ofSize width height) () =
      Failure.raise (Limits.raise (l.checkImage width height)) := by
  simp only [ofSize, gate_cons, Limits.checkImage, Limits.cap]
  cases Limits.check .width width l.width with
  | error e => rfl
  | ok _ =>
    cases Limits.check .height height l.height with
    | error e => rfl
    | ok _ => cases Limits.check .pixels (width * height) l.pixels <;> rfl

end Charge

open Charge (gate)

def Config.limited (c : Config) (l : Limits) : Config := { c with limits := l }

section Indexing

variable {s t : Stream} {config : Config} {event : Event} {index : Index} {e : Encoding}

theorem Intake.Serves.build_eq_gate {α : Type} {k : Intake α} (hk : k.Serves)
    (hwidth : ∀ h, (k.index h).width = k.width h)
    (hheight : ∀ h, (k.index h).height = k.height h)
    (h : Index.build k.encoding s config.unlimited = .ok (index, t, event)) :
    Index.build k.encoding s config =
      gate config.limits (Charge.ofSize index.width index.height) (index, t, event) := by
  rw [hk] at h ⊢
  obtain ⟨header, ho, rfl⟩ := build_eq_ok h
  obtain ⟨bytes, hr, hp, _, hlength, rfl⟩ := ofStream_eq_ok_iff.mp ho
  rw [hwidth, hheight, Charge.gate_eq_bind, Charge.gate_ofSize]
  unfold build ofStream
  simp only [hr, hp, finish, Nat.not_lt_of_le hlength, if_false]
  cases config.limits.checkImage (k.width header) (k.height header) <;> rfl

theorem Index.admitTiles_eq_gate {width height : Nat} {l : Limits}
    (h : admitTiles .none e width height = .ok ()) :
    admitTiles l e width height =
      gate l (Charge.ofSize width height ++ [⟨.indexBytes, 4 * (width * height)⟩]) () := by
  unfold admitTiles at h ⊢
  split at h
  · cases h
  next hsize =>
    obtain ⟨_, _, h⟩ := bind_eq_ok h
    obtain ⟨bytes, hbytes, _⟩ := bind_eq_ok h
    have hexact : bytes = 4 * (width * height) := by
      obtain ⟨area, harea, hquad⟩ := bind_eq_ok (mapError_eq_ok hbytes)
      obtain ⟨rfl, _⟩ := Word.product64_eq_ok_iff.mp harea
      obtain ⟨rfl, _⟩ := Word.product64_eq_ok_iff.mp hquad
      exact Nat.mul_comm _ _
    rw [if_neg hsize, Charge.gate_append, Charge.gate_ofSize, ← hexact]
    simp only [hbytes, Charge.gate_cons]
    cases l.checkImage width height with
    | error excess => rfl
    | ok _ =>
      show Failure.raise (Limits.raise (l.checkIndex bytes)) = _
      unfold Limits.checkIndex
      simp only [Limits.cap]
      cases Limits.check .indexBytes bytes l.indexBytes <;> rfl

theorem Index.tile_eq_gate (h : tile e s config.unlimited = .ok (index, t, event)) :
    tile e s config = gate config.limits
      (Charge.ofSize index.width index.height ++
        [⟨.indexBytes, 4 * (index.width * index.height)⟩]) (index, t, event) := by
  unfold tile at h ⊢
  split at h
  · cases h
  · split at h
    · cases h
    · obtain ⟨_, _, h⟩ := bind_eq_ok h
      cases h
    · obtain ⟨_, hadmitted, h⟩ := bind_eq_ok h
      obtain ⟨_, hcuts, h⟩ := bind_eq_ok h
      cases h
      have hcuts : Failure.fitting (Mosaic.checkCuts _ _ config.tileSize) = .ok _ := hcuts
      dsimp only
      rw [admitTiles_eq_gate hadmitted, hcuts]
      exact (Charge.gate_eq_bind _ _).symm

theorem Index.build_eq_gate (h : build e s config.unlimited = .ok (index, t, event)) :
    build e s config =
      gate config.limits (Charge.ofIndex e index.width index.height) (index, t, event) := by
  cases e with
  | pnm => exact Netpbm.serves_intake.build_eq_gate (fun _ => rfl) (fun _ => rfl) h
  | farbfeld => exact Farbfeld.serves_intake.build_eq_gate (fun _ => rfl) (fun _ => rfl) h
  | _ => exact tile_eq_gate h

end Indexing

namespace Image

def limited (im : Image) (l : Limits) : Image := { im with limits := l }

/-- The request passes its sample size, the first check and its rectangle, and comes to so many
bytes. -/
def Asks (im : Image) (rect : Rect) (o : Options) (stop : Stop) (bytes : Nat) : Prop :=
  0 < o.sampleSize ∧ stop 0 = none ∧
    ∃ c, im.bounds.intersect? rect = some c ∧ (im.regionOf c o).byteLength = bytes

variable {im : Image} {rect : Rect} {o : Options} {stop : Stop} {l : Limits} {bytes : Nat}

theorem Asks.plan_of_excess (h : im.Asks rect o stop bytes) {excess : Excess}
    (he : Charge.excess? l ⟨.regionBytes, bytes⟩ = some excess) :
    (im.limited l).plan rect o stop = .error (.error (.limitExceeded excess)) := by
  obtain ⟨hs, hstop, c, hc, rfl⟩ := h
  have hcheck : l.checkRegion (im.regionOf c o).byteLength = .error excess := by
    unfold Charge.excess? Limits.cap at he
    dsimp only at he
    split at he
    next max hmax =>
      split at he
      next hlt =>
        cases he
        exact (Limits.check_eq_error_iff _ _ _ _).mpr ⟨max, hmax, hlt, rfl⟩
      · cases he
    · cases he
  unfold plan
  rw [if_neg (Nat.ne_of_gt hs), hstop]
  dsimp only
  rw [show (im.limited l).bounds = im.bounds from rfl, hc]
  dsimp only
  rw [show (im.limited l).limits.checkRegion ((im.limited l).regionOf c o).byteLength = _
    from hcheck]

theorem plan_of_admits (hunlimited : im.limits = .none)
    (h : ∀ bytes, im.Asks rect o stop bytes → Limits.Admits l.regionBytes bytes) :
    (im.limited l).plan rect o stop = im.plan rect o stop := by
  by_cases hs : o.sampleSize = 0
  · simp only [plan, hs, if_true]
  · have hs' := Nat.pos_of_ne_zero hs
    cases hstop : stop 0 with
    | some reason => rw [plan_cancelled hs' hstop, plan_cancelled hs' hstop]
    | none =>
      cases hc : im.bounds.intersect? rect with
      | none =>
        unfold plan
        simp only [if_neg hs, hstop, show (im.limited l).bounds = im.bounds from rfl, hc]
      | some c =>
        have hadmits := h _ ⟨hs', hstop, c, hc, rfl⟩
        have hfree : Limits.Admits im.limits.regionBytes (im.regionOf c o).byteLength := by
          rw [hunlimited]
          exact fun _ hm => by cases hm
        rw [plan_eq_ok hs' hstop hc hfree]
        exact plan_eq_ok hs' hstop hc hadmits

end Image

/-- A request is turned away for its size: nothing is asked of an allocator, and a bitmap that
would have been used again stays as it is. -/
def Holding.Refuses (held : Holding) (rect : Rect) (o : Options) (stop : Stop) (excess : Excess) :
    Prop :=
  (held.decode rect o stop).1 = ⟨.error (.error (.limitExceeded excess)), 1, [], []⟩ ∧
    ∀ target, (held.decodeInto rect o target stop).1 =
        ⟨.error (.error (.limitExceeded excess)), 1, [], []⟩ ∧
      (held.decodeInto rect o target stop).2.1 = target

namespace Viewer

def limited (v : Viewer) (l : Limits) : Viewer := { v with image.limits := l }

def charges (v : Viewer) (length : Nat) : List Charge :=
  ⟨.sourceBytes, length⟩ :: Charge.ofIndex v.encoding v.width v.height

variable {s : Stream} {config : Config} {v : Viewer}

theorem openStream_eq_gate (h : (openStream s config.unlimited).1 = .ok v) :
    (openStream s config).1 =
      gate config.limits (v.charges s.length) (v.limited config.limits) := by
  have hcheck : Limits.check .sourceBytes s.length (config.limits.cap .sourceBytes) =
      config.limits.checkSource s.length := rfl
  rw [charges, Charge.gate_cons, hcheck]
  unfold openStream openChanging at h ⊢
  cases config.limits.checkSource s.length with
  | error excess => rfl
  | ok _ =>
    split at h
    · cases h
    · split at h
      · cases h
      next probe s' _ =>
        split at h
        · cases h
        next hi =>
          cases h
          obtain ⟨⟨index, t, event⟩, hb, hi⟩ := bind_eq_ok hi
          cases hi
          dsimp only
          unfold Probe.index
          rw [Index.build_eq_gate hb]
          unfold Charge.gate
          dsimp only [encoding, Image.width, Image.height]
          cases (Charge.ofIndex probe.encoding index.width index.height).findSome?
            (Charge.excess? config.limits) <;> rfl

section Requests

variable {rect : Rect} {o : Options} {stop : Stop} {l l' : Limits} {f g : Feed} {a : Allocator}

theorem refuses_of_excess {held : Holding} {bytes : Nat} {excess : Excess}
    (hheld : held.viewer? = some ((v.limited l).fedBy g a)) (h : v.image.Asks rect o stop bytes)
    (he : Charge.excess? l ⟨.regionBytes, bytes⟩ = some excess) :
    held.Refuses rect o stop excess := by
  have hasks : (v.image.fedBy g a).Asks rect o stop bytes := h
  have hplan : ((v.limited l).fedBy g a).image.plan rect o stop = _ :=
    hasks.plan_of_excess he
  have hchecks := Image.planChecks_eq h.1
  constructor
  · rw [(Holding.decode_of_viewer? hheld rect o stop).1]
    show (Image.decode _ rect o stop).1 = _
    simp only [Image.decode, hplan, hchecks]
    rfl
  · intro target
    obtain ⟨hd, ht, _⟩ := Holding.decodeInto_of_viewer? hheld rect o target stop
    rw [hd, ht]
    show (Image.decodeInto _ rect o target stop).1 = _ ∧
      (Image.decodeInto _ rect o target stop).2.1 = _
    simp only [Image.decodeInto, hplan, hchecks]
    exact ⟨rfl, trivial⟩

theorem concurs_limited (hunlimited : v.image.limits = .none)
    (hg : g.stream.answers = f.stream.answers)
    (h : ∀ bytes, v.image.Asks rect o stop bytes → Limits.Admits l.regionBytes bytes) :
    (Holding.owned ((v.limited l).fedBy g a)).Concurs (.owned (v.fedBy f a)) rect o stop := by
  have hplan : ((v.limited l).fedBy g a).image.plan rect o stop =
      (v.fedBy f a).image.plan rect o stop := by
    show ((v.image.fedBy g a).limited l).plan rect o stop = (v.image.fedBy g a).plan rect o stop
    exact Image.plan_of_admits hunlimited h
  have hecho (c : Rect) : ((v.limited l).fedBy g a).image.Echoes (v.fedBy f a).image c := by
    intro j _ _
    exact congrArg (v.image.index.rowOf · c.left.toNat c.width j) hg
  constructor
  · apply Image.decode_echo _ hplan
    · exact fun c _ => ⟨hecho c, rfl⟩
    · rfl
  · intro target
    apply Image.decodeInto_echo _ hplan
    · exact fun c _ => hecho c
    · rfl

theorem admits_of_not_refused {held : Holding}
    (hheld : held.viewer? = some ((v.limited l).fedBy g a))
    (h : ∀ excess, ¬held.Refuses rect o stop excess) {bytes : Nat}
    (hasks : v.image.Asks rect o stop bytes) : Limits.Admits l.regionBytes bytes := by
  have hnone : Charge.excess? l ⟨.regionBytes, bytes⟩ = none := by
    apply Option.eq_none_iff_forall_ne_some.mpr
    intro excess he
    exact h excess (refuses_of_excess hheld hasks he)
  exact Charge.excess?_eq_none_iff.mp hnone

theorem viewer?_after_limited (v : Viewer) (l : Limits) {deeds : List Deed}
    (hall : ∀ d ∈ deeds, d.IsCall) :
    ∃ g : Feed, ((Holding.owned (v.limited l)).after deeds).viewer? =
        some ((v.limited l).fedBy g v.image.allocator) ∧
      g.stream.answers = v.image.feed.stream.answers := by
  have hstart : (Holding.owned (v.limited l)).viewer? =
      some ((v.limited l).fedBy v.image.feed v.image.allocator) := rfl
  obtain ⟨g, a, hnow, hcalls⟩ := Holding.viewer?_after hstart deeds
  obtain ⟨hg, rfl⟩ := hcalls hall
  exact ⟨g, hnow, hg⟩

theorem limited_none (h : v.image.limits = .none) : v.limited .none = v := by
  unfold limited
  rw [← h]

end Requests

/-- Limits decide whether an image opens and which requests are turned away for their size. Nothing
else that is done with the image depends on them, and laxer limits turn less away. -/
theorem limits_only_gate (hopen : (openStream s config.unlimited).1 = .ok v) (l : Limits) :
    ((openStream s (config.limited l)).1 = gate l (v.charges s.length) (v.limited l) ∧
      ((∃ u, (openStream s (config.limited l)).1 = .ok u) ↔
        Limits.Admits l.sourceBytes s.length ∧ Limits.Admits l.width v.width ∧
          Limits.Admits l.height v.height ∧ Limits.Admits l.pixels (v.width * v.height) ∧
          (v.encoding.hasRandomAccess = false →
            Limits.Admits l.indexBytes (4 * (v.width * v.height))))) ∧
    (∀ deeds : List Deed, (∀ d ∈ deeds, d.IsCall) → ∀ rect o stop,
      ((∀ bytes, v.image.Asks rect o stop bytes → Limits.Admits l.regionBytes bytes) →
        ((Holding.owned (v.limited l)).after deeds).Concurs ((Holding.owned v).after deeds)
          rect o stop) ∧
      ∀ bytes max, v.image.Asks rect o stop bytes → l.regionBytes = some max → max < bytes →
        ((Holding.owned (v.limited l)).after deeds).Refuses rect o stop
          ⟨.regionBytes, bytes, max⟩) ∧
    ∀ l', l.RelaxesTo l' →
      ((∃ u, (openStream s (config.limited l)).1 = .ok u) →
        (openStream s (config.limited l')).1 = .ok (v.limited l')) ∧
      ∀ deeds : List Deed, (∀ d ∈ deeds, d.IsCall) → ∀ rect o stop,
        (∀ excess, ¬((Holding.owned (v.limited l)).after deeds).Refuses rect o stop excess) →
        ((Holding.owned (v.limited l')).after deeds).Concurs
          ((Holding.owned (v.limited l)).after deeds) rect o stop := by
  have hunlimited : v.image.limits = .none := (opened_of_openStream (Prod.ext hopen rfl)).limits
  have hgate (l : Limits) : (openStream s (config.limited l)).1 =
      gate l (v.charges s.length) (v.limited l) := by
    have hopen : (openStream s (config.limited l).unlimited).1 = .ok v := hopen
    exact openStream_eq_gate hopen
  have hconcurs (l : Limits) (deeds : List Deed) (hall : ∀ d ∈ deeds, d.IsCall) (rect : Rect)
      (o : Options) (stop : Stop)
      (h : ∀ bytes, v.image.Asks rect o stop bytes → Limits.Admits l.regionBytes bytes) :
      ((Holding.owned (v.limited l)).after deeds).Concurs ((Holding.owned v).after deeds)
        rect o stop := by
    obtain ⟨g, hg, hganswers⟩ := v.viewer?_after_limited l hall
    obtain ⟨f, hf, hfanswers⟩ := v.viewer?_after_limited .none hall
    rw [limited_none hunlimited] at hf
    apply Holding.concurs_of_viewer? hg hf
    exact concurs_limited hunlimited (hganswers.trans hfanswers.symm) h
  refine ⟨⟨hgate l, ?_⟩, fun deeds hall rect o stop => ⟨hconcurs l deeds hall rect o stop, ?_⟩, ?_⟩
  · rw [hgate]
    simp only [Charge.gate_eq_ok_iff, exists_and_left, exists_eq, and_true, charges,
      List.forall_mem_cons, Charge.ofIndex, Charge.ofSize, List.cons_append, List.nil_append,
      Limits.cap]
    cases v.encoding.hasRandomAccess with
    | true => simp
    | false => simp
  · intro bytes max hasks hmax hlt
    obtain ⟨g, hg, _⟩ := v.viewer?_after_limited l hall
    apply refuses_of_excess hg hasks
    unfold Charge.excess? Limits.cap
    simp only [hmax, hlt, if_true]
  · intro l' hrelaxed
    constructor
    · rintro ⟨u, hu⟩
      rw [hgate] at hu ⊢
      exact Charge.gate_relaxed hrelaxed hu _
    · intro deeds hall rect o stop hnot
      obtain ⟨g, hg, _⟩ := v.viewer?_after_limited l hall
      have hadmits (bytes : Nat) (hasks : v.image.Asks rect o stop bytes) :
          Limits.Admits l.regionBytes bytes := admits_of_not_refused hg hnot hasks
      have hlax (bytes : Nat) (hasks : v.image.Asks rect o stop bytes) :
          Limits.Admits l'.regionBytes bytes := by
        have hcap : Limits.Admits (l.cap .regionBytes) bytes := hadmits bytes hasks
        exact hrelaxed.admits hcap
      have h := hconcurs l deeds hall rect o stop hadmits
      have h' := hconcurs l' deeds hall rect o stop hlax
      exact h'.trans h.symm

theorem limits_only_gate_of_dot :
    let l : Limits := ⟨some 24, some 1, none, none, some 0, some 3⟩
    let tight : Limits := { l with width := some 0, pixels := some 0 }
    let rect : Rect := ⟨0, 0, 1, 1⟩
    let small : Options := { Options.standard with format := some .gray8 }
    let deeds : List Deed := [.decode rect .standard .never, .shelve .empty]
    (openStream (.ofBytes dotBytes) (Config.standard.limited l)).1 = .ok (dot.limited l) ∧
      (openStream (.ofBytes dotBytes) (Config.standard.limited tight)).1 =
        .error (.error (.limitExceeded ⟨.width, 1, 0⟩)) ∧
      ((Holding.owned (dot.limited l)).after deeds).Refuses rect .standard .never
        ⟨.regionBytes, 4, 3⟩ ∧
      ((Holding.owned (dot.limited l)).after deeds).Concurs ((Holding.owned dot).after deeds) rect
        small .never := by
  intro l tight rect small deeds
  have hopen : (openStream (.ofBytes dotBytes) Config.standard.unlimited).1 = .ok dot :=
    congrArg Prod.fst openStream_dot
  have hcalls : ∀ d ∈ deeds, d.IsCall := by simp [deeds, Deed.IsCall]
  have hc : dot.image.bounds.intersect? rect = some rect := by decide
  obtain ⟨⟨hgate, _⟩, hrequests, _⟩ := limits_only_gate hopen l
  refine ⟨hgate, (limits_only_gate hopen tight).1.1, ?_, ?_⟩
  · apply (hrequests deeds hcalls rect .standard .never).2 4 3 _ rfl (by decide)
    exact ⟨by decide, rfl, rect, hc, by decide⟩
  · apply (hrequests deeds hcalls rect small .never).1
    rintro bytes ⟨_, _, c, hc', rfl⟩ max hmax
    obtain rfl := Option.some.inj (hc.symm.trans hc')
    cases hmax
    decide

theorem oversize_request_is_cancelled :
    let l : Limits := { Limits.none with regionBytes := some 3 }
    let rect : Rect := ⟨0, 0, 1, 1⟩
    (openStream (.ofBytes dotBytes) (Config.standard.limited l)).1 = .ok (dot.limited l) ∧
      dot.image.bounds.intersect? rect = some rect ∧
      3 < (dot.image.regionOf rect .standard).byteLength ∧
      ((dot.limited l).decode rect .standard (.always .cancelled)).1.result =
        .ok (.cancelled .cancelled) := by
  intro l rect
  have hopen : (openStream (.ofBytes dotBytes) Config.standard.unlimited).1 = .ok dot :=
    congrArg Prod.fst openStream_dot
  have hlimited : (openStream (.ofBytes dotBytes) (Config.standard.limited l)).1 =
      gate l (dot.charges 24) (dot.limited l) := openStream_eq_gate hopen
  exact ⟨hlimited, by decide, by decide, rfl⟩

end Viewer

end ImageRegion
