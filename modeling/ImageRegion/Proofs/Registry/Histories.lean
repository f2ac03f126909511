import Mathlib.Logic.Function.Basic
import ImageRegion.Proofs.Registry.Calls

/-!
Registries: a count of the handles that were given and a partial map from handles to viewers. What a
handle stands for can be told from the calls alone.
-/

namespace ImageRegion

structure Registry where
  given : Nat
  released : Nat
  viewer? : Handle → Option Viewer

namespace Registry

def empty : Registry := ⟨0, 0, fun _ => none⟩

def next (r : Registry) : Handle := ⟨r.given + 1⟩

def insert (r : Registry) (v : Viewer) : Registry where
  given := r.given + 1
  released := r.released
  viewer? := Function.update r.viewer? r.next (some v)

def step (r : Registry) : Call → Registry
  | .insert v => r.insert v
  | .bring supply config =>
    match supply.viewer config with
    | .error _ => r
    | .ok v => r.insert v
  | .ask h q =>
    match r.viewer? h with
    | none => r
    | some v => { r with viewer? := Function.update r.viewer? h (some (v.ask q).2) }
  | .release h =>
    match r.viewer? h with
    | none => r
    | some _ => ⟨r.given, r.released + 1, Function.update r.viewer? h none⟩

def note (r : Registry) : Call → Note
  | .insert _ => .given (.ok r.next)
  | .bring supply config => .given ((supply.viewer config).map fun _ => r.next)
  | .ask h q =>
    match r.viewer? h with
    | none => .read (q.unknown h)
    | some v => .read (v.ask q).1
  | .release h =>
    match r.viewer? h with
    | none => .released (.error (.unknownHandle h))
    | some _ => .released (.ok ())

def after (r : Registry) : List Call → Registry
  | [] => r
  | call :: calls => (r.step call).after calls

def notes (r : Registry) : List Call → List Note
  | [] => []
  | call :: calls => r.note call :: (r.step call).notes calls

section Steps

variable {r : Registry} {call : Call} {h : Handle} {v : Viewer}

theorem viewer?_insert_self (r : Registry) (v : Viewer) :
    (r.insert v).viewer? r.next = some v := by
  unfold insert
  exact Function.update_self r.next (some v) r.viewer?

theorem viewer?_insert_of_ne (v : Viewer) (hne : h ≠ r.next) :
    (r.insert v).viewer? h = r.viewer? h := by
  unfold insert
  exact Function.update_of_ne hne (some v) r.viewer?

theorem step_of_insert (hcall : call.viewer? = some v) :
    r.step call = r.insert v ∧ r.note call = .given (.ok r.next) := by
  cases call with
  | insert w =>
    cases hcall
    exact ⟨rfl, rfl⟩
  | bring supply config =>
    cases ho : supply.viewer config with
    | error failure =>
      simp only [Call.viewer?, ho] at hcall
      cases hcall
    | ok w =>
      simp only [Call.viewer?, ho] at hcall
      cases hcall
      simp only [step, note, ho]
      exact ⟨trivial, rfl⟩
  | ask h q => cases hcall
  | release h => cases hcall

theorem step_of_none (hcall : call.viewer? = none) :
    (r.step call).given = r.given ∧ (r.note call).handle? = none := by
  cases call with
  | insert w => cases hcall
  | bring supply config =>
    cases ho : supply.viewer config with
    | error failure =>
      simp only [step, note, ho]
      exact ⟨trivial, rfl⟩
    | ok w =>
      simp only [Call.viewer?, ho] at hcall
      cases hcall
  | ask k q => cases hv : r.viewer? k <;> simp only [step, note, hv] <;> exact ⟨trivial, rfl⟩
  | release k => cases hv : r.viewer? k <;> simp only [step, note, hv] <;> exact ⟨trivial, rfl⟩

theorem given_step (r : Registry) (call : Call) :
    (r.step call).given = r.given + call.viewer?.toList.length := by
  cases hcall : call.viewer? with
  | none => exact (step_of_none hcall).1
  | some v =>
    rw [(step_of_insert hcall).1]
    rfl

theorem given_le_step (r : Registry) (call : Call) : r.given ≤ (r.step call).given := by
  rw [given_step]
  exact Nat.le_add_right _ _

theorem released_step (r : Registry) (call : Call) :
    (r.step call).released = r.released + if (r.note call).isRelease then 1 else 0 := by
  cases call with
  | insert v => rfl
  | bring supply config => cases ho : supply.viewer config <;> simp only [step, note, ho] <;> rfl
  | ask h q => cases hv : r.viewer? h <;> simp only [step, note, hv] <;> rfl
  | release h => cases hv : r.viewer? h <;> simp only [step, note, hv] <;> rfl

theorem viewer?_step_of_none (hcall : call.viewer? = none ∨ h ≠ r.next)
    (hr : r.viewer? h = none) : (r.step call).viewer? h = none := by
  have hinsert {v : Viewer} (hv : call.viewer? = some v) : (r.insert v).viewer? h = none := by
    have hne : h ≠ r.next := hcall.resolve_left fun hnone => by
      rw [hv] at hnone
      cases hnone
    rw [viewer?_insert_of_ne v hne, hr]
  have hupdate {k : Handle} {v : Viewer} (hv : r.viewer? k = some v) (after : Option Viewer) :
      Function.update r.viewer? k after h = none := by
    have hk : h ≠ k := fun heq => by
      rw [← heq, hr] at hv
      cases hv
    rw [Function.update_of_ne hk, hr]
  cases call with
  | insert v => exact hinsert rfl
  | bring supply config =>
    cases ho : supply.viewer config with
    | error failure =>
      simp only [step, ho]
      exact hr
    | ok v =>
      simp only [step, ho]
      apply hinsert
      rw [Call.viewer?, ho]
      rfl
  | ask k q =>
    cases hv : r.viewer? k with
    | none =>
      simp only [step, hv]
      exact hr
    | some v =>
      simp only [step, hv]
      exact hupdate hv _
  | release k =>
    cases hv : r.viewer? k with
    | none =>
      simp only [step, hv]
      exact hr
    | some v =>
      simp only [step, hv]
      exact hupdate hv none

theorem viewer?_step_of_some (hne : h ≠ r.next) (hr : r.viewer? h = some v)
    (hcall : call ≠ .release h) :
    (r.step call).viewer? h = some (v.asked (call.queryTo h).toList) := by
  have hinsert (w : Viewer) : (r.insert w).viewer? h = some v := by
    rw [viewer?_insert_of_ne w hne, hr]
  cases call with
  | insert w => exact hinsert w
  | bring supply config =>
    simp only [step]
    split
    · exact hr
    · exact hinsert _
  | ask k q =>
    by_cases hk : k = h
    · subst hk
      simp only [step, hr, Call.queryTo, if_true]
      exact Function.update_self k _ r.viewer?
    · simp only [step, Call.queryTo, hk, if_false]
      split
      · exact hr
      · exact (Function.update_of_ne (Ne.symm hk) _ r.viewer?).trans hr
  | release k =>
    have hk : h ≠ k := fun heq => hcall (heq ▸ rfl)
    simp only [step]
    split
    · exact hr
    · exact (Function.update_of_ne hk _ r.viewer?).trans hr

theorem viewer?_release : (r.step (.release h)).viewer? h = none := by
  cases hv : r.viewer? h with
  | none =>
    simp only [step, hv]
  | some v =>
    simp only [step, hv]
    exact Function.update_self h none r.viewer?

end Steps

end Registry

def inserted (calls : List Call) : List Viewer := calls.filterMap Call.viewer?

/-- The calls give a handle to a viewer and do not release it later, where `given` handles were
given before them; `w` is what the viewer has become by what it was asked. -/
def StandsFor (given : Nat) (calls : List Call) (h : Handle) (w : Viewer) : Prop :=
  ∃ before call later v, calls = before ++ call :: later ∧ call.viewer? = some v ∧
    h.raw = given + (inserted before).length + 1 ∧ .release h ∉ later ∧
    w = v.asked (later.filterMap (Call.queryTo h))

section Histories

variable {call : Call} {calls : List Call} {h : Handle} {given : Nat} {v w : Viewer}

theorem Viewer.asked_append (v : Viewer) (queries more : List Query) :
    v.asked (queries ++ more) = (v.asked queries).asked more := by
  induction queries generalizing v with
  | nil => rfl
  | cons q queries ih => exact ih (v.ask q).2

theorem length_inserted_cons (call : Call) (calls : List Call) :
    (inserted (call :: calls)).length = call.viewer?.toList.length + (inserted calls).length := by
  unfold inserted
  rw [List.filterMap_cons]
  cases call.viewer? with
  | none => exact (Nat.zero_add _).symm
  | some v => exact Nat.add_comm _ _

theorem standsFor_cons_iff : StandsFor given (call :: calls) h w ↔
    (∃ v, call.viewer? = some v ∧ h.raw = given + 1 ∧ .release h ∉ calls ∧
      w = v.asked (calls.filterMap (Call.queryTo h))) ∨
    StandsFor (given + call.viewer?.toList.length) calls h w := by
  constructor
  · rintro ⟨before, called, later, v, hcalls, hv, hraw, hlater, rfl⟩
    rcases List.cons_eq_append_iff.mp hcalls with ⟨rfl, hcalls⟩ | ⟨before, rfl, rfl⟩
    · cases hcalls
      exact .inl ⟨v, hv, hraw, hlater, rfl⟩
    · rw [length_inserted_cons] at hraw
      exact .inr ⟨before, called, later, v, rfl, hv, by omega, hlater, rfl⟩
  · rintro (⟨v, hv, hraw, hlater, rfl⟩ | ⟨before, called, later, v, rfl, hv, hraw, hlater, rfl⟩)
    · exact ⟨[], call, calls, v, rfl, hv, hraw, hlater, rfl⟩
    · refine ⟨call :: before, called, later, v, rfl, hv, ?_, hlater, rfl⟩
      rw [length_inserted_cons]
      omega

theorem StandsFor.lt_raw (hs : StandsFor given calls h w) : given < h.raw := by
  obtain ⟨_, _, _, _, _, _, hraw, _⟩ := hs
  omega

namespace Registry

variable {r : Registry}

theorem ne_next (hgiven : h.raw ≤ r.given) : h ≠ r.next := fun heq => by
  rw [heq] at hgiven
  exact absurd hgiven (Nat.not_succ_le_self _)

theorem viewer?_after_of_none (hgiven : h.raw ≤ r.given) (hr : r.viewer? h = none)
    (calls : List Call) : (r.after calls).viewer? h = none := by
  induction calls generalizing r with
  | nil => exact hr
  | cons call calls ih =>
    apply ih
    · exact Nat.le_trans hgiven (r.given_le_step call)
    · exact viewer?_step_of_none (.inr (ne_next hgiven)) hr

theorem viewer?_after_of_some (hgiven : h.raw ≤ r.given) (hr : r.viewer? h = some v)
    (calls : List Call) : (r.after calls).viewer? h = some w ↔
      .release h ∉ calls ∧ w = v.asked (calls.filterMap (Call.queryTo h)) := by
  -- The viewer under the handle is generalised: each query leaves another one there.
  induction calls generalizing r v with
  | nil =>
    rw [after, hr]
    simp [Viewer.asked, eq_comm]
  | cons call calls ih =>
    have hgiven' := Nat.le_trans hgiven (r.given_le_step call)
    by_cases hcall : call = .release h
    · subst hcall
      rw [after, viewer?_after_of_none hgiven' viewer?_release]
      simp
    · have hqueries : (call :: calls).filterMap (Call.queryTo h) =
          (call.queryTo h).toList ++ calls.filterMap (Call.queryTo h) := by
        rw [List.filterMap_cons]
        cases call.queryTo h <;> rfl
      have hother : ¬Call.release h = call := Ne.symm hcall
      rw [after, ih hgiven' (viewer?_step_of_some (ne_next hgiven) hr hcall), hqueries,
        Viewer.asked_append, List.mem_cons, not_or, and_iff_right hother]

theorem viewer?_after_iff (hfresh : r.given < h.raw) (hr : r.viewer? h = none) :
    (r.after calls).viewer? h = some w ↔ StandsFor r.given calls h w := by
  induction calls generalizing r with
  | nil =>
    rw [after, hr]
    constructor
    · intro hw
      cases hw
    · rintro ⟨before, _, _, _, hcalls, _⟩
      exact absurd hcalls.symm (List.append_ne_nil_of_right_ne_nil before (List.cons_ne_nil _ _))
  | cons call calls ih =>
    rw [after, standsFor_cons_iff, ← given_step]
    cases hcall : call.viewer? with
    | none =>
      have hgiven := (step_of_none (r := r) hcall).1
      rw [ih (hgiven.symm ▸ hfresh) (viewer?_step_of_none (.inl hcall) hr)]
      simp only [reduceCtorEq, false_and, exists_false, false_or]
    | some v =>
      rw [(step_of_insert hcall).1]
      have hgiven : (r.insert v).given = r.given + 1 := rfl
      by_cases hh : h = r.next
      · -- This call gives the handle, and no later one can.
        have hraw : h.raw = r.given + 1 := congrArg Handle.raw hh
        have hother : ¬StandsFor (r.insert v).given calls h w := fun hs => by
          have := hs.lt_raw
          omega
        have hstored : (r.insert v).viewer? h = some v := by rw [hh, viewer?_insert_self]
        rw [viewer?_after_of_some (Nat.le_of_eq (hraw.trans hgiven.symm)) hstored,
          or_iff_left hother]
        constructor
        · rintro ⟨hlater, rfl⟩
          exact ⟨v, rfl, hraw, hlater, rfl⟩
        · rintro ⟨_, hv, _, hlater, rfl⟩
          cases hv
          exact ⟨hlater, rfl⟩
      · have hne : h.raw ≠ r.given + 1 := fun hraw => hh (congrArg Handle.mk hraw)
        have hkept : (r.insert v).viewer? h = none := by rw [viewer?_insert_of_ne v hh, hr]
        rw [ih (by omega) hkept]
        simp only [hne, false_and, and_false, exists_false, false_or]

theorem given_after (r : Registry) (calls : List Call) :
    (r.after calls).given = r.given + (inserted calls).length := by
  induction calls generalizing r with
  | nil => rfl
  | cons call calls ih =>
    rw [after, ih, given_step, length_inserted_cons]
    omega

theorem released_after (r : Registry) (calls : List Call) :
    (r.after calls).released = r.released + (r.notes calls).countP Note.isRelease := by
  induction calls generalizing r with
  | nil => rfl
  | cons call calls ih =>
    rw [after, ih, released_step, notes, List.countP_cons]
    omega

theorem handles_notes (r : Registry) (calls : List Call) :
    (r.notes calls).filterMap Note.handle? =
      (List.range' (r.given + 1) (inserted calls).length).map Handle.mk := by
  induction calls generalizing r with
  | nil => rfl
  | cons call calls ih =>
    rw [notes, List.filterMap_cons, ih, given_step, length_inserted_cons]
    cases hcall : call.viewer? with
    | none =>
      rw [(step_of_none hcall).2, Option.toList_none, List.length_nil, Nat.zero_add]
    | some v =>
      rw [(step_of_insert hcall).2, Option.toList_some, List.length_singleton, Nat.add_comm 1,
        List.range'_succ]
      rfl

end Registry

end Histories

end ImageRegion
