import ImageRegion.Proofs.Geometry.Words
import ImageRegion.Proofs.History
import ImageRegion.Proofs.Registry.Calls
import ImageRegion.Proofs.Verdict

namespace ImageRegion

namespace Image

/-- The bytes that a fresh decode asks for, if the request passes everything that is looked at
first. -/
def demand? (im : Image) (rect : Rect) (o : Options) (stop : Stop) : Option Nat :=
  let r := im.regionOf (im.bounds.overlap rect) o
  let bytes := r.format.rowBytes r.width * r.height
  if 0 < o.sampleSize ∧ stop 0 = none ∧ im.bounds.Meets rect ∧ im.limits.excess? bytes = none then
    some bytes
  else none

variable {im : Image} {rect c : Rect} {o : Options} {stop : Stop} {a : Allocator}

theorem demand?_eq_plan (im : Image) (rect : Rect) (o : Options) (stop : Stop) :
    im.demand? rect o stop = ((im.plan rect o stop).map Region.byteLength).toOption := by
  unfold demand? plan
  by_cases hs : o.sampleSize = 0
  · simp only [hs, Nat.lt_irrefl, false_and, if_false, if_true]
    rfl
  · simp only [hs, Nat.pos_of_ne_zero hs, true_and, if_false]
    cases stop 0 with
    | some reason => rfl
    | none =>
      by_cases hmeets : im.bounds.Meets rect
      · rw [Rect.intersect?_of_meets hmeets]
        simp only [hmeets, true_and, Limits.excess?, Limits.checkRegion, Limits.check,
          Region.byteLength, PixelFormat.imageBytes]
        generalize im.regionOf (im.bounds.overlap rect) o = r
        cases im.limits.regionBytes with
        | none => rfl
        | some max =>
          by_cases h : max < r.format.rowBytes r.width * r.height
          · simp only [h, if_true]
            rfl
          · simp only [h, if_false]
            rfl
      · rw [Rect.intersect?_of_not_meets hmeets]
        simp only [hmeets, false_and, and_false, if_false]
        rfl

theorem decode_requests (im : Image) (rect : Rect) (o : Options) (stop : Stop) :
    (im.decode rect o stop).1.requests = (im.demand? rect o stop).toList := by
  rw [demand?_eq_plan]
  unfold decode
  cases im.plan rect o stop with
  | error halt => rfl
  | ok r =>
    dsimp only
    cases im.allocator.allot r.byteLength <;> rfl

theorem decodeInto_requests (im : Image) (rect : Rect) (o : Options) (target : Bitmap)
    (stop : Stop) : (im.decodeInto rect o target stop).1.requests = [] := by
  unfold decodeInto
  cases im.plan rect o stop with
  | error halt => rfl
  | ok r =>
    dsimp only
    cases target.reconfigure r.width r.height r.format o.premultiplied <;> rfl

theorem demand?_lt {bytes : Nat} (h : im.demand? rect o stop = some bytes) :
    bytes < 0x10000000000000000 := by
  rw [demand?_eq_plan] at h
  cases hplan : im.plan rect o stop with
  | error halt =>
    rw [hplan] at h
    cases h
  | ok r =>
    rw [hplan] at h
    cases h
    obtain ⟨hs, _, c, hc, rfl⟩ := plan_ok hplan
    obtain ⟨hwidth, hheight⟩ := size_regionOf_lt (clamped_of_intersect? hc) hs
    exact (PixelFormat.imageBytes?_eq _ hwidth hheight).2

theorem decode_of_demand {bytes : Nat} (h : im.demand? rect o stop = some bytes) :
    (∀ e, im.allocator.allot bytes = .refused e →
      (im.decode rect o stop).1.result = .error (.error e)) ∧
    ∀ message, im.allocator.allot bytes = .abandoned message →
      (im.decode rect o stop).1.result = .error (.unwound message) := by
  rw [demand?_eq_plan] at h
  cases hplan : im.plan rect o stop with
  | error halt =>
    rw [hplan] at h
    cases h
  | ok r =>
    rw [hplan] at h
    cases h
    constructor
    · intro e he
      simp only [decode, hplan, he]
    · intro message hm
      simp only [decode, hplan, hm]

theorem decode_of_allot (ha : ∀ bytes ∈ im.demand? rect o stop, a.allot bytes =
    im.allocator.allot bytes) :
    ((im.fedBy im.feed a).decode rect o stop).1 = (im.decode rect o stop).1 := by
  rw [demand?_eq_plan] at ha
  have hplan : (im.fedBy im.feed a).plan rect o stop = im.plan rect o stop := rfl
  unfold decode
  rw [hplan]
  cases hr : im.plan rect o stop with
  | error halt => rfl
  | ok r =>
    rw [hr] at ha
    have hallot : (im.fedBy im.feed a).allocator.allot r.byteLength =
        im.allocator.allot r.byteLength := ha _ rfl
    simp only [hallot]
    cases im.allocator.allot r.byteLength <;> rfl

theorem decodeInto_of_allocator (target : Bitmap) :
    ((im.fedBy im.feed a).decodeInto rect o target stop).1 =
        (im.decodeInto rect o target stop).1 ∧
      ((im.fedBy im.feed a).decodeInto rect o target stop).2.1 =
        (im.decodeInto rect o target stop).2.1 :=
  decodeInto_fedBy a stop (fun _ _ _ _ _ => rfl) target

end Image

theorem Viewer.decodeRegion_of_allocator (v : Viewer) (a : Allocator) (target : Bitmap)
    (rect : Rect) (format : Option PixelFormat) (sampleSize : Nat) :
    ((v.fedBy v.image.feed a).decodeRegion (some target) rect format sampleSize).1 =
      (v.decodeRegion (some target) rect format sampleSize).1 := by
  have hinto : ((v.image.fedBy v.image.feed a).decodeInto rect (plainOptions format sampleSize)
      target .never).1 = _ := (Image.decodeInto_of_allocator target).1
  exact congrArg (fun d : Decoding Region => d.toExcept.map fun _ => none) hinto

namespace Supply

variable {supply : Supply} {config : Config}

theorem viewer_of_allocator (supply : Supply) (config : Config) (a : Allocator) :
    supply.viewer { config with allocator := a } =
      (supply.viewer config).map fun v => v.fedBy v.image.feed a := by
  unfold viewer Viewer.openStream Viewer.openChanging
  cases supply.stream with
  | error e => rfl
  | ok s =>
    dsimp only
    cases config.limits.checkSource s.length with
    | error excess => rfl
    | ok _ =>
      dsimp only
      rcases Probe.ofStream s with ⟨probe | probe, t⟩
      · rfl
      · dsimp only [id, Probe.index]
        have hbuild : Index.build probe.encoding t { config with allocator := a } =
            Index.build probe.encoding t config := by
          cases probe.encoding <;> rfl
        rw [hbuild]
        cases Index.build probe.encoding t config <;> rfl

theorem allocator_of_viewer {v : Viewer} (h : supply.viewer config = .ok v) :
    v.image.allocator = config.allocator := by
  unfold viewer at h
  split at h
  · cases h
  · exact (Viewer.opened_of_openStream (Prod.ext h rfl)).allocator

end Supply

namespace Holding

def requests (held : Holding) : Deed → List Nat
  | .decode rect o stop => (held.decode rect o stop).1.requests
  | .decodeInto rect o target stop => (held.decodeInto rect o target stop).1.requests
  | .shelve _ | .disturb _ | .reallot _ => []

def demand? (held : Holding) : Deed → Option Nat
  | .decode rect o stop => held.viewer?.bind fun v => v.image.demand? rect o stop
  | .decodeInto .. | .shelve _ | .disturb _ | .reallot _ => none

variable {held : Holding}

theorem requests_eq (held : Holding) (d : Deed) : held.requests d = (held.demand? d).toList := by
  cases hv : held.viewer? with
  | some v =>
    cases d with
    | decode rect o stop =>
      simp only [requests, demand?, hv, Option.bind_some]
      rw [(decode_of_viewer? hv rect o stop).1]
      exact v.image.decode_requests rect o stop
    | decodeInto rect o target stop =>
      simp only [requests, demand?]
      rw [(decodeInto_of_viewer? hv rect o target stop).1]
      exact v.image.decodeInto_requests rect o target stop
    | _ => rfl
  | none =>
    cases held with
    | owned v => cases hv
    | shelved c h =>
      have hnone : c.get? h = none := hv
      cases d with
      | decode rect o stop =>
        simp only [requests, demand?, decode, Catalogue.decode, hnone, hv]
        rfl
      | decodeInto rect o target stop =>
        simp only [requests, demand?, decodeInto, Catalogue.decodeInto, hnone]
        rfl
      | _ => rfl

theorem allocator_perform {v : Viewer} (hv : held.viewer? = some v) {d : Deed}
    (hd : ∀ allot, d ≠ .reallot allot) :
    ∃ f, (held.perform d).viewer? = some (v.fedBy f v.image.allocator) := by
  cases d with
  | decode rect o stop => exact viewer?_of_calls hv trivial
  | decodeInto rect o target stop => exact viewer?_of_calls hv trivial
  | shelve c => exact viewer?_of_calls hv trivial
  | disturb change => exact ⟨_, viewer?_amend hv _⟩
  | reallot allot => exact absurd rfl (hd allot)

end Holding

inductive Errand
  | bring (supply : Supply) (config : Config)
  | use (position : Nat) (deed : Deed)
  | reallot (allot : Nat → Allotment)

structure Pool where
  allocator : Allocator
  images : List Holding
  asked : List Nat

namespace Pool

def empty (a : Allocator) : Pool := ⟨a, [], []⟩

def viewer? (p : Pool) (position : Nat) : Option Viewer :=
  p.images[position]?.bind Holding.viewer?

def perform (p : Pool) : Errand → Pool
  | .bring supply config =>
    match supply.viewer { config with allocator := p.allocator } with
    | .ok v => { p with images := p.images ++ [.owned v] }
    | .error _ => p
  | .use position d =>
    { p with
      images := p.images.modify position (·.perform d)
      asked := p.asked ++ (p.images[position]?.map (·.requests d)).getD [] }
  | .reallot allot =>
    { p with
      allocator := { p.allocator with allot }
      images := p.images.map (·.perform (.reallot allot)) }

def after (p : Pool) (errands : List Errand) : Pool := errands.foldl perform p

def trail (p : Pool) : List Errand → List (Pool × Errand)
  | [] => []
  | e :: errands => (p, e) :: (p.perform e).trail errands

def demand? (p : Pool) : Errand → Option Nat
  | .use position d => p.images[position]?.bind (·.demand? d)
  | .bring _ _ | .reallot _ => none

variable {p : Pool} {e : Errand} {errands : List Errand}

theorem asked_perform (p : Pool) (e : Errand) :
    (p.perform e).asked = p.asked ++ (p.demand? e).toList := by
  cases e with
  | bring supply config =>
    unfold perform
    dsimp only
    split <;> exact (List.append_nil _).symm
  | use position d =>
    simp only [perform, demand?]
    cases p.images[position]? with
    | none => rfl
    | some held =>
      simp only [Option.map_some, Option.getD_some, Option.bind_some]
      rw [held.requests_eq d]
  | reallot allot => exact (List.append_nil _).symm

theorem asked_after (p : Pool) (errands : List Errand) :
    (p.after errands).asked =
      p.asked ++ (p.trail errands).filterMap fun step => step.1.demand? step.2 := by
  induction errands generalizing p with
  | nil => exact (List.append_nil _).symm
  | cons e errands ih =>
    refine (ih (p.perform e)).trans ?_
    rw [asked_perform, List.append_assoc, trail, List.filterMap_cons]
    dsimp only
    cases p.demand? e <;> rfl

theorem sum_filterMap_id (demands : List (Option Nat)) :
    (demands.filterMap id).sum = (demands.map fun demand => demand.getD 0).sum := by
  induction demands with
  | nil => rfl
  | cons demand demands ih =>
    cases demand with
    | none => simpa using ih
    | some bytes => simpa using ih

theorem demand?_lt {bytes : Nat} (h : p.demand? e = some bytes) : bytes < 0x10000000000000000 := by
  cases e with
  | bring supply config => cases h
  | use position d =>
    obtain ⟨held, _, h⟩ := Option.bind_eq_some_iff.mp h
    cases d with
    | decode rect o stop =>
      obtain ⟨v, _, h⟩ := Option.bind_eq_some_iff.mp h
      exact Image.demand?_lt h
    | _ => cases h
  | reallot allot => cases h

section Images

variable {position : Nat} {v : Viewer}

theorem viewer?_eq_some_iff : p.viewer? position = some v ↔
    ∃ held, p.images[position]? = some held ∧ held.viewer? = some v := Option.bind_eq_some_iff

theorem viewer?_perform (hv : p.viewer? position = some v) (e : Errand) :
    ∃ f a, (p.perform e).viewer? position = some (v.fedBy f a) := by
  obtain ⟨held, hheld, hv⟩ := viewer?_eq_some_iff.mp hv
  have hv : held.viewer? = some (v.fedBy v.image.feed v.image.allocator) := hv
  cases e with
  | bring supply config =>
    refine ⟨v.image.feed, v.image.allocator, ?_⟩
    unfold perform
    dsimp only
    split
    · have hlt := (List.getElem?_eq_some_iff.mp hheld).1
      exact viewer?_eq_some_iff.mpr ⟨held, (List.getElem?_append_left hlt).trans hheld, hv⟩
    · exact viewer?_eq_some_iff.mpr ⟨held, hheld, hv⟩
  | use other d =>
    by_cases hother : other = position
    · obtain ⟨f, a, hdone, _⟩ := Holding.viewer?_perform hv d
      refine ⟨f, a, viewer?_eq_some_iff.mpr ⟨held.perform d, ?_, hdone⟩⟩
      simp only [perform, List.getElem?_modify, hother, if_true, hheld]
      rfl
    · refine ⟨_, _, viewer?_eq_some_iff.mpr ⟨held, ?_, hv⟩⟩
      simp only [perform, List.getElem?_modify, hother, if_false, hheld]
      rfl
  | reallot allot =>
    obtain ⟨f, a, hdone, _⟩ := Holding.viewer?_perform hv (.reallot allot)
    refine ⟨f, a, viewer?_eq_some_iff.mpr ⟨held.perform (.reallot allot), ?_, hdone⟩⟩
    simp only [perform, List.getElem?_map, hheld, Option.map_some]

theorem viewer?_after (hv : p.viewer? position = some v) (errands : List Errand) :
    ∃ f a, (p.after errands).viewer? position = some (v.fedBy f a) := by
  replace hv : p.viewer? position = some (v.fedBy v.image.feed v.image.allocator) := hv
  generalize v.image.feed = f, v.image.allocator = a at hv
  induction errands generalizing p f a with
  | nil => exact ⟨f, a, hv⟩
  | cons e errands ih =>
    obtain ⟨f', a', hv'⟩ := viewer?_perform hv e
    exact ih f' a' hv'

theorem viewer?_of_mem_trail {step : Pool × Errand} (hstep : step ∈ p.trail errands)
    (hv : step.1.viewer? position = some v) :
    ∃ f a, (p.after errands).viewer? position = some (v.fedBy f a) := by
  induction errands generalizing p with
  | nil => cases hstep
  | cons e errands ih =>
    rcases List.mem_cons.mp hstep with rfl | hstep
    · exact viewer?_after hv (e :: errands)
    · exact ih hstep

end Images

def Shared (p : Pool) : Prop :=
  ∀ held ∈ p.images, ∃ v, held.viewer? = some v ∧ v.image.allocator = p.allocator

theorem Shared.perform (h : p.Shared) (he : ∀ position allot, e ≠ .use position (.reallot allot)) :
    (p.perform e).Shared := by
  cases e with
  | bring supply config =>
    unfold Pool.perform
    dsimp only
    split
    next v hopen =>
      intro held hheld
      rcases List.mem_append.mp hheld with hheld | hheld
      · exact h held hheld
      · obtain rfl := List.mem_singleton.mp hheld
        exact ⟨v, rfl, Supply.allocator_of_viewer hopen⟩
    · exact h
  | use position d =>
    intro held hheld
    obtain ⟨other, hother⟩ := List.mem_iff_getElem?.mp hheld
    simp only [Pool.perform, List.getElem?_modify] at hother
    obtain ⟨before, hbefore, rfl⟩ := Option.map_eq_some_iff.mp hother
    obtain ⟨v, hv, ha⟩ := h before (List.mem_of_getElem? hbefore)
    split
    · obtain ⟨f, hdone⟩ := Holding.allocator_perform hv fun allot hd => he position allot (hd ▸ rfl)
      exact ⟨_, hdone, ha⟩
    · exact ⟨v, hv, ha⟩
  | reallot allot =>
    intro held hheld
    obtain ⟨before, hbefore, rfl⟩ := List.mem_map.mp hheld
    obtain ⟨v, hv, ha⟩ := h before hbefore
    refine ⟨_, Holding.viewer?_amend hv _, ?_⟩
    show { v.image.allocator with allot } = { p.allocator with allot }
    rw [ha]

theorem Shared.after (h : p.Shared)
    (he : ∀ position allot, Errand.use position (.reallot allot) ∉ errands) :
    (p.after errands).Shared := by
  induction errands generalizing p with
  | nil => exact h
  | cons e errands ih =>
    refine ih (h.perform fun position allot heq => ?_) fun position allot hmem => ?_
    · exact he position allot (heq ▸ List.mem_cons_self ..)
    · exact he position allot (List.mem_cons_of_mem _ hmem)

/-- The allocator is called once for each fresh decode that is going to be painted, for exactly the
bytes of the output, and for nothing else. Neither opening an image nor decoding into a bitmap
depends on it, and a fresh decode depends on its answer to that one call alone. -/
theorem asked_once (a : Allocator) (errands : List Errand) :
    let pool := (empty a).after errands
    let demands := ((empty a).trail errands).map fun step => step.1.demand? step.2
    (pool.asked = demands.filterMap id ∧ pool.asked.length = demands.countP Option.isSome ∧
      pool.asked.sum = (demands.map fun demand => demand.getD 0).sum ∧
      ∀ bytes ∈ pool.asked, bytes < 0x10000000000000000) ∧
    ((∀ step ∈ (empty a).trail errands, ∀ position v, step.1.viewer? position = some v →
        ∃ f b, pool.viewer? position = some (v.fedBy f b)) ∧
      ((∀ position allot, Errand.use position (.reallot allot) ∉ errands) → pool.Shared)) ∧
    (∀ (supply : Supply) config b, supply.viewer { config with allocator := b } =
      (supply.viewer config).map fun v => v.fedBy v.image.feed b) ∧
    ∀ (v : Viewer) b rect o stop,
      ((∀ bytes ∈ v.image.demand? rect o stop, b.allot bytes = v.image.allocator.allot bytes) →
        ((v.fedBy v.image.feed b).decode rect o stop).1 = (v.decode rect o stop).1) ∧
      (∀ bytes ∈ v.image.demand? rect o stop,
        (∀ e, v.image.allocator.allot bytes = .refused e →
          (v.decode rect o stop).1.result = .error (.error e)) ∧
        ∀ message, v.image.allocator.allot bytes = .abandoned message →
          (v.decode rect o stop).1.result = .error (.unwound message)) ∧
      ∀ target, (((v.fedBy v.image.feed b).decodeInto rect o target stop).1 =
          (v.decodeInto rect o target stop).1 ∧
        ((v.fedBy v.image.feed b).decodeInto rect o target stop).2.1 =
          (v.decodeInto rect o target stop).2.1) ∧
        ∀ format sampleSize,
          ((v.fedBy v.image.feed b).decodeRegion (some target) rect format sampleSize).1 =
            (v.decodeRegion (some target) rect format sampleSize).1 := by
  intro pool demands
  have hasked : pool.asked = demands.filterMap id := by
    refine (asked_after (empty a) errands).trans ?_
    rw [List.filterMap_map]
    rfl
  refine ⟨⟨hasked, ?length, ?sum, ?word⟩, ⟨?kept, ?shared⟩, ?opening, ?decoding⟩
  case length =>
    rw [hasked]
    exact List.length_filterMap_eq_countP
  case sum => rw [hasked, sum_filterMap_id]
  case word =>
    intro bytes hbytes
    rw [hasked] at hbytes
    obtain ⟨demand, hdemand, rfl⟩ := List.mem_filterMap.mp hbytes
    obtain ⟨step, _, hstep⟩ := List.mem_map.mp hdemand
    exact demand?_lt hstep
  case kept => exact fun step hstep position v hv => viewer?_of_mem_trail hstep hv
  case shared => exact fun he => Shared.after (fun held hheld => by cases hheld) he
  case opening => exact Supply.viewer_of_allocator
  case decoding =>
    intro v b rect o stop
    exact ⟨fun hb => Image.decode_of_allot hb, fun bytes hbytes => Image.decode_of_demand hbytes,
      fun target => ⟨Image.decodeInto_of_allocator target,
        v.decodeRegion_of_allocator b target rect⟩⟩

theorem asked_once_of_dot :
    let onDot : Deed := .decode ⟨0, 0, 1, 1⟩ .standard .never
    let errands : List Errand := [
      .bring (.bytes (.ofBytes Viewer.dotBytes)) .standard,
      .reallot fun _ => .abandoned "gave up",
      .use 0 onDot,
      .use 0 (.decode ⟨1, 1, 2, 2⟩ .standard .never),
      .use 0 (.decodeInto ⟨0, 0, 1, 1⟩ .standard ⟨1, 1, .gray8, true, 0, #[9]⟩ .never),
      .reallot Allocator.heap.allot,
      .use 0 onDot]
    let picky : Allocator :=
      ⟨none, fun bytes => if bytes = 4 then Allocator.heap.allot 4 else .abandoned "gave up"⟩
    ((empty .heap).after errands).asked = [4, 4] ∧ ((empty .heap).after errands).Shared ∧
      ((Viewer.dot.fedBy Viewer.dot.image.feed picky).decode ⟨0, 0, 1, 1⟩ .standard .never).1 =
        (Viewer.dot.decode ⟨0, 0, 1, 1⟩ .standard .never).1 := by
  intro onDot errands picky
  have hopen : (Supply.bytes (.ofBytes Viewer.dotBytes)).viewer
      { Config.standard with allocator := .heap } = .ok Viewer.dot :=
    congrArg Prod.fst Viewer.openStream_dot
  have hbrought : (empty .heap).perform (.bring (.bytes (.ofBytes Viewer.dotBytes)) .standard) =
      ⟨.heap, [.owned Viewer.dot], []⟩ := by
    simp only [perform, empty, hopen, List.nil_append]
  have hdot : Viewer.dot.image.demand? ⟨0, 0, 1, 1⟩ .standard .never = some 4 := by decide
  obtain ⟨⟨hasked, _⟩, ⟨_, hshared⟩, _, hdecode⟩ := asked_once .heap errands
  refine ⟨hasked.trans ?_, hshared ?_, (hdecode Viewer.dot picky _ _ _).1 ?_⟩
  · simp only [errands, trail, hbrought]
    rfl
  · intro position allot hmem
    simp [errands, onDot] at hmem
  · rw [hdot]
    intro bytes hbytes
    cases hbytes
    rfl

end Pool

end ImageRegion
