import ImageRegion.Proofs.Registry.Histories
import ImageRegion.Proofs.Sampling.Grid

namespace ImageRegion

namespace Catalogue

structure Represents (c : Catalogue) (r : Registry) : Prop where
  next : c.next = Word.wrap64 (r.given + 1)
  get? : ∀ h, c.get? h = r.viewer? h
  nodup : c.keys.Nodup
  le_given : ∀ h ∈ c.keys, h.raw ≤ r.given
  size : c.size + r.released = r.given

variable {c : Catalogue} {r : Registry} {v : Viewer} {h : Handle}

theorem represents_empty : empty.Represents .empty :=
  ⟨rfl, fun _ => rfl, List.nodup_nil, fun _ hmem => absurd hmem List.not_mem_nil, rfl⟩

theorem size_eq (c : Catalogue) : c.size = c.keys.length := (List.length_map ..).symm

theorem length_filter_ne {keys : List Handle} (hnodup : keys.Nodup) (hmem : h ∈ keys) :
    (keys.filter fun key => key ≠ h).length + 1 = keys.length := by
  have herase : keys.erase h = keys.filter fun key => key ≠ h := by
    rw [hnodup.erase_eq_filter]
    apply List.filter_congr
    intro key _
    rw [bne, Bool.beq_eq_decide_eq]
    simp
  have hpos := List.length_pos_of_mem hmem
  rw [← herase, List.length_erase_of_mem hmem]
  omega

theorem Represents.insert (hc : c.Represents r) (hroom : r.given + 1 < 0x10000000000000000) :
    (c.insert v).1 = r.next ∧ (c.insert v).2.Represents (r.insert v) := by
  have hnext : (c.insert v).1 = r.next := by
    show Handle.mk c.next = ⟨r.given + 1⟩
    rw [hc.next, Word.wrap64_of_lt hroom]
  -- The next handle is above all keys, so inserting replaces nothing.
  have hnew : r.next ∉ c.keys := fun hmem =>
    absurd (hc.le_given _ hmem) (Nat.not_le_of_lt (Nat.lt_succ_self _))
  have hkeys : (c.insert v).2.keys = r.next :: c.keys := by
    rw [keys_insert, hnext, List.filter_eq_self.mpr]
    intro key hkey
    exact decide_eq_true fun heq => hnew (heq ▸ hkey)
  refine ⟨hnext, ?_, fun h => ?_, ?_, fun h hmem => ?_, ?_⟩
  · show Word.wrap64 (c.next + 1) = _
    rw [hc.next, Word.wrap64_of_lt hroom]
    rfl
  · by_cases hh : h = r.next
    · subst hh
      rw [Registry.viewer?_insert_self, ← hnext, get?_insert]
    · rw [Registry.viewer?_insert_of_ne v hh, get?_insert_of_ne v (hnext.symm ▸ hh), hc.get?]
  · rw [hkeys]
    exact List.nodup_cons.mpr ⟨hnew, hc.nodup⟩
  · rw [hkeys] at hmem
    rcases List.mem_cons.mp hmem with rfl | hmem
    · exact Nat.le_refl _
    · exact Nat.le_succ_of_le (hc.le_given h hmem)
  · have hsize := hc.size
    rw [size_eq] at hsize ⊢
    rw [hkeys, List.length_cons]
    simp only [Registry.insert]
    omega

theorem Represents.ask (hc : c.Represents r) (h : Handle) (q : Query) :
    .read (c.ask h q).1 = r.note (.ask h q) ∧ (c.ask h q).2.Represents (r.step (.ask h q)) := by
  have hget := hc.get? h
  cases hv : r.viewer? h with
  | none =>
    rw [hv] at hget
    rw [ask_of_none hget]
    simp only [Registry.note, Registry.step, hv]
    exact ⟨trivial, hc⟩
  | some v =>
    rw [hv] at hget
    obtain ⟨hreading, hkept⟩ := ask_of_get? hget q
    simp only [Registry.note, Registry.step, hv, hreading, true_and]
    refine ⟨?_, fun k => ?_, ?_, ?_, ?_⟩
    · rw [next_ask, hc.next]
    · by_cases hk : k = h
      · subst hk
        rw [hkept]
        exact (Function.update_self k (some (v.ask q).2) r.viewer?).symm
      · rw [get?_ask_of_ne hk, hc.get?]
        exact (Function.update_of_ne hk (some (v.ask q).2) r.viewer?).symm
    · rw [keys_ask]
      exact hc.nodup
    · rw [keys_ask]
      exact hc.le_given
    · rw [size_eq, keys_ask, ← size_eq]
      exact hc.size

theorem Represents.release (hc : c.Represents r) (h : Handle) :
    (c.call (.release h)).1 = r.note (.release h) ∧
      (c.call (.release h)).2.Represents (r.step (.release h)) := by
  have hget := hc.get? h
  cases hv : r.viewer? h with
  | none =>
    rw [hv] at hget
    simp only [call, Catalogue.release, hget, Registry.note, Registry.step, hv, true_and]
    exact hc
  | some v =>
    rw [hv] at hget
    simp only [call, Catalogue.release, hget, Registry.note, Registry.step, hv, true_and]
    have hkeys : (⟨c.next, remove h c.entries⟩ : Catalogue).keys =
        c.keys.filter fun key => key ≠ h := keys_remove h c.entries
    refine ⟨hc.next, fun k => ?_, ?_, fun k hmem => ?_, ?_⟩
    · by_cases hk : k = h
      · subst hk
        rw [get?_removed]
        exact (Function.update_self k none r.viewer?).symm
      · rw [get?_removed_of_ne hk, hc.get?]
        exact (Function.update_of_ne hk none r.viewer?).symm
    · rw [hkeys]
      exact hc.nodup.filter _
    · rw [hkeys] at hmem
      exact hc.le_given k (List.mem_filter.mp hmem).1
    · have hlength := length_filter_ne hc.nodup (mem_keys_iff.mpr ⟨v, hget⟩)
      have hsize := hc.size
      show (⟨c.next, remove h c.entries⟩ : Catalogue).size + (r.released + 1) = r.given
      rw [size_eq] at hsize ⊢
      rw [hkeys]
      omega

theorem Represents.call (hc : c.Represents r) (call : Call)
    (hroom : r.given + call.viewer?.toList.length < 0x10000000000000000) :
    (c.call call).1 = r.note call ∧ (c.call call).2.Represents (r.step call) := by
  cases call with
  | insert v =>
    obtain ⟨hnext, hrep⟩ := hc.insert (v := v) hroom
    exact ⟨congrArg (fun h => Note.given (.ok h)) hnext, hrep⟩
  | bring supply config =>
    cases ho : supply.viewer config with
    | error failure =>
      simp only [Catalogue.call, Registry.note, Registry.step, ho]
      exact ⟨rfl, hc⟩
    | ok v =>
      simp only [Call.viewer?, ho] at hroom
      obtain ⟨hnext, hrep⟩ := hc.insert (v := v) hroom
      simp only [Catalogue.call, Registry.note, Registry.step, ho, hnext]
      exact ⟨rfl, hrep⟩
  | ask h q => exact hc.ask h q
  | release h => exact hc.release h

theorem Represents.run (hc : c.Represents r) (calls : List Call)
    (hroom : r.given + (inserted calls).length < 0x10000000000000000) :
    (c.run calls).1 = r.notes calls ∧ (c.run calls).2.Represents (r.after calls) := by
  induction calls generalizing c r with
  | nil => exact ⟨rfl, hc⟩
  | cons call calls ih =>
    rw [length_inserted_cons] at hroom
    obtain ⟨hnote, hstep⟩ := hc.call call (by omega)
    have hgiven := r.given_step call
    obtain ⟨hnotes, hrun⟩ := ih hstep (by omega)
    exact ⟨congrArg₂ List.cons hnote hnotes, hrun⟩

/-- Every run of calls: handles are numbered in the order they are given, and one is good just while
the calls have it stand for a viewer. -/
theorem is_exact_registry (calls : List Call)
    (hcount : (inserted calls).length < 0x10000000000000000) :
    let c := (empty.run calls).2
    (empty.run calls).1.filterMap Note.handle? =
        (List.range' 1 (inserted calls).length).map Handle.mk ∧
      (∀ h w, c.get? h = some w ↔ StandsFor 0 calls h w) ∧
      c.size + (empty.run calls).1.countP Note.isRelease = (inserted calls).length ∧
      (∀ supply config failure, supply.viewer config = .error failure →
        c.call (.bring supply config) = (.given (.error failure), c)) ∧
      (∀ h, (¬∃ w, StandsFor 0 calls h w) →
        (∀ q, c.call (.ask h q) = (.read (q.unknown h), c)) ∧
          c.call (.release h) = (.released (.error (.unknownHandle h)), c)) ∧
      ∀ h w, StandsFor 0 calls h w →
        (∀ q, (c.call (.ask h q)).1 = .read (w.ask q).1) ∧
          (c.call (.release h)).1 = .released (.ok ()) := by
  intro c
  obtain ⟨hnotes, hc⟩ := represents_empty.run calls (by
    show 0 + (inserted calls).length < _
    omega)
  have hget (h : Handle) (w : Viewer) : c.get? h = some w ↔ StandsFor 0 calls h w := by
    rw [hc.get?]
    by_cases hpos : 0 < h.raw
    · exact Registry.viewer?_after_iff hpos rfl
    · have hzero : h.raw ≤ Registry.empty.given := Nat.le_of_not_lt hpos
      rw [Registry.viewer?_after_of_none hzero rfl]
      constructor
      · intro hw
        cases hw
      · intro hs
        exact absurd hs.lt_raw hpos
  refine ⟨?_, hget, ?_, ?_, ?_, ?_⟩
  · rw [hnotes, Registry.handles_notes]
    rfl
  · have hsize := hc.size
    rw [Registry.released_after, Registry.given_after, ← hnotes] at hsize
    simp only [Registry.empty, Nat.zero_add] at hsize
    exact hsize
  · intro supply config failure ho
    simp only [Catalogue.call, ho]
  · intro h hnot
    have hnone : c.get? h = none := by
      cases hv : c.get? h with
      | none => rfl
      | some w => exact absurd ⟨w, (hget h w).mp hv⟩ hnot
    refine ⟨fun q => ?_, ?_⟩
    · simp only [Catalogue.call, ask_of_none hnone q]
    · simp only [Catalogue.call, release, hnone]
  · intro h w hs
    have hsome := (hget h w).mpr hs
    refine ⟨fun q => congrArg Note.read (ask_of_get? hsome q).1, ?_⟩
    simp only [Catalogue.call, release, hsome]

theorem is_exact_registry_of_stamps :
    let v : Viewer := ⟨Image.stamp, 3, 2⟩
    let weak : Viewer :=
      ⟨{ Image.stamp with allocator := ⟨none, fun _ => .abandoned "gave up"⟩ }, 3, 2⟩
    let calls : List Call := [
      .insert v,
      .bring (.asset (.ofBytes #[]) Allocator.addressable) .standard,
      .insert weak,
      .ask ⟨2⟩ (.decode ⟨0, 0, 3, 2⟩ .standard .never),
      .release ⟨1⟩,
      .release ⟨1⟩]
    let c := (empty.run calls).2
    (empty.run calls).1.filterMap Note.handle? = [⟨1⟩, ⟨2⟩] ∧
      c.size + (empty.run calls).1.countP Note.isRelease = 2 ∧
      (c.call (.ask ⟨2⟩ .width)).1 = .read (.number (.ok 3)) ∧
      c.call (.release ⟨1⟩) = (.released (.error (.unknownHandle ⟨1⟩)), c) := by
  intro v weak calls c
  have hinserted : inserted calls = [v, weak] := rfl
  obtain ⟨hgiven, hget, hsize, _, hunknown, hknown⟩ := is_exact_registry calls (by
    rw [hinserted]
    decide)
  rw [hinserted] at hgiven hsize
  have hstands : StandsFor 0 calls ⟨2⟩
      (weak.asked [.decode ⟨0, 0, 3, 2⟩ .standard .never]) := by
    refine ⟨calls.take 2, .insert weak, calls.drop 3, weak, rfl, rfl, rfl, ?_, rfl⟩
    simp [calls]
  have hgone : ¬∃ w, StandsFor 0 calls ⟨1⟩ w := by
    rintro ⟨w, hs⟩
    have hnone : c.get? ⟨1⟩ = none := rfl
    rw [(hget ⟨1⟩ w).mpr hs] at hnone
    cases hnone
  exact ⟨hgiven, hsize, (hknown _ _ hstands).1 .width, (hunknown _ hgone).2⟩

end Catalogue

end ImageRegion
