import ImageRegion.Proofs.Image.Safety
import ImageRegion.Proofs.Reuse

/-!
What a decode comes to. The rules are tried in order and the first that applies decides; a decode
that none of them ends is finished.
-/

namespace ImageRegion

namespace Rect

def Meets (r s : Rect) : Prop := ∃ x y, r.Contains x y ∧ s.Contains x y

theorem meets_iff {r s : Rect} : r.Meets s ↔ (r.overlap s).isEmpty = false := by
  rw [isEmpty_eq_false]
  constructor
  · rintro ⟨x, y, h⟩
    obtain ⟨hl, hr, ht, hb⟩ := (contains_overlap r s x y).mpr h
    omega
  · rintro ⟨hw, hh⟩
    refine ⟨(r.overlap s).left, (r.overlap s).top, (contains_overlap r s _ _).mp ?_⟩
    simp only [Contains]
    omega

instance (r s : Rect) : Decidable (r.Meets s) := decidable_of_iff _ meets_iff.symm

theorem intersect?_of_meets {r s : Rect} (h : r.Meets s) : r.intersect? s = some (r.overlap s) := by
  unfold intersect?
  rw [meets_iff.mp h]
  rfl

theorem intersect?_of_not_meets {r s : Rect} (h : ¬r.Meets s) : r.intersect? s = none := by
  rw [meets_iff, Bool.not_eq_false] at h
  exact if_pos h

end Rect

structure Verdict where
  result : Except Failure (Outcome Region)
  checks : Nat

namespace Verdict

def failed (e : Error) (checks : Nat) : Verdict := ⟨.error (.error e), checks⟩

def first : List (Option Verdict) → Verdict → Verdict
  | [], otherwise => otherwise
  | none :: rules, otherwise => first rules otherwise
  | some verdict :: _, _ => verdict

end Verdict

def Decoding.verdict {α : Type} (d : Decoding α) (region : α → Region) : Verdict :=
  ⟨d.result.map fun outcome => outcome.map region, d.checks⟩

namespace Stop

def verdict? (stop : Stop) (k : Nat) : Option Verdict :=
  (stop k).map fun reason => ⟨.ok (.cancelled reason), k + 1⟩

variable {stop : Stop} {n height : Nat}

theorem rowVerdict?_of_passes (h : ∀ y < n, stop (y + 1) = none) :
    (List.range n).findSome? (fun y => stop.verdict? (y + 1)) = none := by
  rw [List.findSome?_eq_none_iff]
  intro y hy
  rw [verdict?, h y (List.mem_range.mp hy), Option.map_none]

theorem rowVerdict?_of_fails {reason : StopReason} (h : ∀ y < n, stop (y + 1) = none)
    (hreason : stop (n + 1) = some reason) (hn : n < height) :
    (List.range height).findSome? (fun y => stop.verdict? (y + 1)) =
      some ⟨.ok (.cancelled reason), n + 2⟩ := by
  obtain ⟨k, rfl⟩ : ∃ k, height = n + (k + 1) := ⟨height - n - 1, by omega⟩
  rw [List.range_add, List.findSome?_append, rowVerdict?_of_passes h, List.range_succ_eq_map,
    Option.none_or, List.map_cons, List.findSome?_cons, Nat.add_zero, verdict?, hreason,
    Option.map_some]

end Stop

def Allocator.refusal? (a : Allocator) (bytes : Nat) : Option Error :=
  match a.allot bytes with
  | .refused e => some e
  | _ => none

def Bitmap.refusal? (b : Bitmap) (bytes : Nat) : Option Error :=
  if b.capacity < bytes then some (.reuseBufferTooSmall bytes b.capacity) else none

def Allocator.IsHonest (a : Allocator) : Prop :=
  ∀ bytes, (∃ e, a.allot bytes = .refused e) ∨
    ∃ storage, a.allot bytes = .storage storage ∧ bytes ≤ storage.size

def Limits.excess? (l : Limits) (bytes : Nat) : Option Error :=
  match l.regionBytes with
  | .some max => if max < bytes then .some (.limitExceeded ⟨.regionBytes, bytes, max⟩) else .none
  | .none => .none

namespace Image

def rules (im : Image) (rect : Rect) (o : Options) (stop : Stop) (refusal? : Nat → Option Error) :
    List (Option Verdict) :=
  let r := im.regionOf (im.bounds.overlap rect) o
  [if o.sampleSize = 0 then some (.failed .invalidSampleSize 0) else none,
    stop.verdict? 0,
    if im.bounds.Meets rect then none else some (.failed (.emptyRegion rect) 1),
    (im.limits.excess? r.byteLength).map fun e => .failed e 1,
    (refusal? r.byteLength).map fun e => .failed e 1,
    (List.range r.height).findSome? fun y => stop.verdict? (y + 1)]

def verdict (im : Image) (rect : Rect) (o : Options) (stop : Stop)
    (refusal? : Nat → Option Error) : Verdict :=
  let r := im.regionOf (im.bounds.overlap rect) o
  .first (im.rules rect o stop refusal?) ⟨.ok (.decoded r), r.height + 1⟩

def paintVerdict (r : Region) (stop : Stop) (refusal? : Nat → Option Error) : Verdict :=
  .first [(refusal? r.byteLength).map fun e => .failed e 1,
    (List.range r.height).findSome? fun y => stop.verdict? (y + 1)] ⟨.ok (.decoded r), r.height + 1⟩

variable {im : Image} {rect : Rect} {o : Options} {stop : Stop} {r : Region} {target : Bitmap}

theorem verdict_eq (im : Image) (rect : Rect) (o : Options) (stop : Stop)
    (refusal? : Nat → Option Error) : im.verdict rect o stop refusal? =
      match im.plan rect o stop with
      | .error halt => ⟨halt.result, planChecks o⟩
      | .ok r => paintVerdict r stop refusal? := by
  unfold verdict rules plan planChecks
  by_cases hs : o.sampleSize = 0
  · simp only [hs, if_true]
    rfl
  · simp only [hs, if_false, Stop.verdict?]
    cases stop 0 with
    | some reason => rfl
    | none =>
      by_cases hmeets : im.bounds.Meets rect
      · rw [Rect.intersect?_of_meets hmeets]
        simp only [hmeets, if_true, Limits.excess?, Limits.checkRegion, Limits.check]
        cases im.limits.regionBytes with
        | none => rfl
        | some max =>
          dsimp only
          split <;> rfl
      · rw [Rect.intersect?_of_not_meets hmeets]
        simp only [hmeets, if_false]
        rfl

theorem paintVerdict_of_refused {refusal? : Nat → Option Error} {e : Error}
    (h : refusal? r.byteLength = some e) : paintVerdict r stop refusal? = .failed e 1 := by
  unfold paintVerdict
  rw [h]
  rfl

theorem paintVerdict_eq (h : (o.painting r).Paintable (im.rows r o))
    {refusal? : Nat → Option Error} (hr : refusal? r.byteLength = none) :
    paintVerdict r stop refusal? =
      ⟨(im.paint r o stop).ending.result r, 1 + (im.paint r o stop).checks⟩ := by
  unfold paintVerdict
  rw [hr]
  rcases paint_ended h stop with ⟨hpass, hended, _, hchecks⟩ | hfails
  · rw [Stop.rowVerdict?_of_passes hpass, hended, hchecks, Nat.add_comm 1]
    rfl
  · obtain ⟨n, hn, reason, hpass, hreason, hended, _, hchecks⟩ := hfails
    rw [Stop.rowVerdict?_of_fails hpass hreason hn, hended, hchecks, Nat.add_comm 1]
    rfl

theorem map_result {α β : Type} (ending : Ending) (value : α) (f : α → β) :
    (ending.result value).map (fun outcome => outcome.map f) = ending.result (f value) := by
  cases ending <;> rfl

theorem Halt.map_result {α β : Type} (halt : Halt) (f : α → β) :
    (halt.result (α := α)).map (fun outcome => outcome.map f) = halt.result := by
  cases halt <;> rfl

theorem Kept.paintable (h : im.Kept) (hplan : im.plan rect o stop = .ok r) :
    (o.painting r).Paintable (im.rows r o) := by
  obtain ⟨hs, _, c, hc, rfl⟩ := plan_ok hplan
  have hclamped := clamped_of_intersect? hc
  have hbottom := hclamped.bottom
  exact paintable_of_reads hclamped hs fun j _ hj => h.reads c hclamped j (by omega)

theorem Kept.decode_verdict (h : im.Kept) (ha : im.allocator.IsHonest) (rect : Rect)
    (o : Options) (stop : Stop) : (im.decode rect o stop).1.verdict Prod.snd =
      im.verdict rect o stop im.allocator.refusal? := by
  rw [verdict_eq]
  cases hplan : im.plan rect o stop with
  | error halt => simp only [decode, hplan, Decoding.verdict, Halt.map_result]
  | ok r =>
    dsimp only
    rcases ha r.byteLength with ⟨e, hrefused⟩ | ⟨storage, hstorage, _⟩
    · have hr : im.allocator.refusal? r.byteLength = some e := by
        rw [Allocator.refusal?, hrefused]
      rw [paintVerdict_of_refused hr]
      simp only [decode, hplan, hrefused]
      rfl
    · have hr : im.allocator.refusal? r.byteLength = none := by
        rw [Allocator.refusal?, hstorage]
      obtain ⟨hresult, hchecks⟩ := decode_of_storage hplan hstorage
      rw [paintVerdict_eq (h.paintable hplan) hr, Decoding.verdict, hresult, hchecks, map_result]

theorem Kept.decodeInto_verdict (h : im.Kept) (rect : Rect) (o : Options) (target : Bitmap)
    (stop : Stop) : (im.decodeInto rect o target stop).1.verdict id =
      im.verdict rect o stop target.refusal? := by
  rw [verdict_eq]
  cases hplan : im.plan rect o stop with
  | error halt => simp only [decodeInto, hplan, Decoding.verdict, Halt.map_result]
  | ok r =>
    dsimp only
    by_cases hsize : r.byteLength ≤ target.capacity
    · have hr : target.refusal? r.byteLength = none := if_neg (Nat.not_lt_of_le hsize)
      obtain ⟨hresult, hchecks, _⟩ := decodeInto_of_le hplan hsize
      rw [paintVerdict_eq (h.paintable hplan) hr, Decoding.verdict, hresult, hchecks, map_result]
      rfl
    · have hlt := Nat.lt_of_not_le hsize
      have hr : target.refusal? r.byteLength = some _ := if_pos hlt
      rw [paintVerdict_of_refused hr]
      simp only [decodeInto, hplan, Bitmap.reconfigure_of_lt o hlt]
      rfl

theorem bytes_fit_of_decoded {b : Bitmap} (ha : im.allocator.IsHonest)
    (h : (im.decode rect o stop).1.result = .ok (.decoded (b, r))) : b.byteLength ≤ b.capacity := by
  obtain ⟨_, _, storage, hstorage, rfl⟩ := decode_decoded h
  rcases ha r.byteLength with ⟨e, hrefused⟩ | ⟨storage', hstorage', hsize⟩
  · rw [hrefused] at hstorage
    cases hstorage
  · obtain rfl : storage' = storage := by
      rw [hstorage'] at hstorage
      cases hstorage
      rfl
    have hwritten := Nat.le_trans (im.written_le r o stop) hsize
    let fresh := Bitmap.ofStorage storage' r.width r.height r.format o.premultiplied
    refine Nat.le_trans hsize (Nat.le_of_eq ?_)
    exact (fresh.capacity_overwrite _ hwritten).symm

end Image

namespace Viewer

/-- The rules decide what becomes of every request to an image that is held in memory or in tiles,
as it was opened or after any use; nothing that is computed on the way is out of range. -/
theorem outcome_decided {supply : Supply} {s : Stream} {config : Config} {v : Viewer}
    {events : List Event} {f : Feed} (hsupply : supply.stream = .ok s)
    (hopen : openStream s config = (.ok v, events))
    (hstreamed : v.encoding.hasRandomAccess = true →
      supply.InMemory ∧ s.length < Allocator.addressable)
    (htiled : v.encoding.hasRandomAccess = false →
      v.width * v.height < 0x100000000 ∧ 0 < config.tileSize ∧ s.content.IsWhole v.encoding)
    (ha : config.allocator.IsHonest) (hf : ∃ position, f.stream = s.turned position)
    (rect : Rect) (o : Options) (stop : Stop) :
    (((v.fedBy f config.allocator).decode rect o stop).1.verdict Prod.snd =
        v.image.verdict rect o stop config.allocator.refusal? ∧
      ∀ b r, ((v.fedBy f config.allocator).decode rect o stop).1.result = .ok (.decoded (b, r)) →
        b.byteLength ≤ b.capacity) ∧
    (∀ target, ((v.fedBy f config.allocator).decodeInto rect o target stop).1.verdict id =
      v.image.verdict rect o stop target.refusal?) ∧
    (0 < o.sampleSize → ∀ c, v.image.bounds.intersect? rect = some c →
      (v.fedBy f config.allocator).image.Safe (v.image.regionOf c o) o) := by
  have hopened := (opened_of_openStream hopen).fedBy hf
  have hkept := hopened.kept (fun he => ⟨(hstreamed he).1.stream hsupply, (hstreamed he).2⟩) htiled
  refine ⟨⟨hkept.decode_verdict ha rect o stop, ?_⟩, ?_, ?_⟩
  · exact fun b r h => Image.bytes_fit_of_decoded ha h
  · exact fun target => hkept.decodeInto_verdict rect o target stop
  · exact fun hs c hc => hkept.safe (Image.clamped_of_intersect? hc) hs

def dotBytes : Array UInt8 :=
  #[0x66, 0x61, 0x72, 0x62, 0x66, 0x65, 0x6C, 0x64, 0, 0, 0, 1, 0, 0, 0, 1,
    0xFF, 0xFF, 0, 0, 0, 0, 0x80, 0]

def dot : Viewer :=
  ⟨⟨.farbfeld, .heap, .none, .farbfeld ⟨1, 1⟩, .ofStream ((Stream.ofBytes dotBytes).turned 16)⟩,
    1, 1⟩

theorem openStream_dot : openStream (.ofBytes dotBytes) .standard =
    (.ok dot, [.farbfeldIndexed 1 1, .opened .farbfeld 1 1]) := by
  have hmemory : (Stream.ofBytes dotBytes).InMemory := Stream.inMemory_ofBytes _
  have hprobe : Probe.ofStream (.ofBytes dotBytes) =
      (.ok ⟨.farbfeld, .heap⟩, (Stream.ofBytes dotBytes).turned 12) := by
    unfold Probe.ofStream
    rw [hmemory.readExactAt_eq (by decide) (by decide)]
    rfl
  refine openStream_of_index rfl hprobe ?_
  unfold Probe.index Index.build Farbfeld.Header.ofStream
  rw [(hmemory.turned 12).readExactAt_eq (by decide) (by decide)]
  rfl

theorem isHonest_heap : Allocator.heap.IsHonest := by
  intro bytes
  by_cases h : Allocator.addressable ≤ bytes
  · exact .inl ⟨_, if_pos h⟩
  · refine .inr ⟨_, if_neg h, ?_⟩
    rw [Array.size_replicate]

theorem outcome_decided_of_dot :
    let rect : Rect := ⟨-1, -1, 5, 5⟩
    (dot.decode rect .standard .never).1.verdict Prod.snd =
        ⟨.ok (.decoded ⟨1, 1, .rgba8, ⟨0, 0, 1, 1⟩, 1, .farbfeld⟩), 2⟩ ∧
      (dot.decodeInto rect .standard ⟨1, 1, .gray8, true, 0, #[9]⟩ .never).1.verdict id =
        .failed (.reuseBufferTooSmall 4 1) 1 ∧
      dot.image.Safe ⟨1, 1, .rgba8, ⟨0, 0, 1, 1⟩, 1, .farbfeld⟩ .standard := by
  intro rect
  have hsupply : Supply.stream (.bytes (.ofBytes dotBytes)) = .ok (.ofBytes dotBytes) := rfl
  have hc : dot.image.bounds.intersect? rect = some ⟨0, 0, 1, 1⟩ := by decide
  obtain ⟨⟨hfresh, _⟩, hinto, hsafe⟩ := outcome_decided (f := dot.image.feed) hsupply
    openStream_dot (fun _ => ⟨fun _ => rfl, by decide⟩) (fun he => by cases he) isHonest_heap
    ⟨16, rfl⟩ rect .standard .never
  have hmeets : dot.image.bounds.Meets rect := by decide
  have hr : dot.image.regionOf (dot.image.bounds.overlap rect) .standard =
      ⟨1, 1, .rgba8, ⟨0, 0, 1, 1⟩, 1, .farbfeld⟩ := by decide
  refine ⟨hfresh.trans ?_, (hinto _).trans ?_, hsafe (by decide) _ hc⟩
  · simp only [Image.verdict, Image.rules, hr, if_pos hmeets]
    rfl
  · simp only [Image.verdict, Image.rules, hr, if_pos hmeets]
    rfl

end Viewer

end ImageRegion
