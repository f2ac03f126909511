import Mathlib.Logic.Basic
import ImageRegion.Proofs.Catalogue
import ImageRegion.Source.Supply

namespace ImageRegion

inductive Query
  | width
  | height
  | decode (rect : Rect) (o : Options) (stop : Stop)
  | decodeInto (rect : Rect) (o : Options) (target : Bitmap) (stop : Stop)

inductive Reading
  | number (result : Except Error Nat)
  | fresh (decoding : Decoding (Bitmap × Region))
  | reused (decoding : Decoding Region) (target : Bitmap)

def Query.unknown (h : Handle) : Query → Reading
  | .width | .height => .number (.error (.unknownHandle h))
  | .decode _ _ _ => .fresh ⟨.error (.error (.unknownHandle h)), 0, [], []⟩
  | .decodeInto _ _ target _ => .reused ⟨.error (.error (.unknownHandle h)), 0, [], []⟩ target

namespace Viewer

def ask (v : Viewer) : Query → Reading × Viewer
  | .width => (.number (.ok v.width), v)
  | .height => (.number (.ok v.height), v)
  | .decode rect o stop => (.fresh (v.decode rect o stop).1, (v.decode rect o stop).2)
  | .decodeInto rect o target stop =>
    (.reused (v.decodeInto rect o target stop).1 (v.decodeInto rect o target stop).2.1,
      (v.decodeInto rect o target stop).2.2)

def asked (v : Viewer) : List Query → Viewer
  | [] => v
  | q :: queries => (v.ask q).2.asked queries

end Viewer

def Supply.viewer (supply : Supply) (config : Config) : Except Failure Viewer :=
  match supply.stream with
  | .error error => .error (.error error)
  | .ok s => (Viewer.openStream s config).1

inductive Call
  | insert (viewer : Viewer)
  | bring (supply : Supply) (config : Config)
  | ask (handle : Handle) (query : Query)
  | release (handle : Handle)

inductive Note
  | given (result : Except Failure Handle)
  | read (reading : Reading)
  | released (result : Except Error Unit)

namespace Call

def viewer? : Call → Option Viewer
  | .insert v => some v
  | .bring supply config => (supply.viewer config).toOption
  | .ask _ _ | .release _ => none

def queryTo (h : Handle) : Call → Option Query
  | .ask k q => if k = h then some q else none
  | _ => none

end Call

namespace Note

def handle? : Note → Option Handle
  | .given (.ok h) => some h
  | _ => none

def isRelease : Note → Bool
  | .released (.ok _) => true
  | _ => false

end Note

namespace Catalogue

def ask (c : Catalogue) (h : Handle) : Query → Reading × Catalogue
  | .width => (.number (c.width h), c)
  | .height => (.number (c.height h), c)
  | .decode rect o stop => (.fresh (c.decode h rect o stop).1, (c.decode h rect o stop).2)
  | .decodeInto rect o target stop =>
    (.reused (c.decodeInto h rect o target stop).1 (c.decodeInto h rect o target stop).2.1,
      (c.decodeInto h rect o target stop).2.2)

def call (c : Catalogue) : Call → Note × Catalogue
  | .insert v => (.given (.ok (c.insert v).1), (c.insert v).2)
  | .bring supply config =>
    match supply.viewer config with
    | .error failure => (.given (.error failure), c)
    | .ok v => (.given (.ok (c.insert v).1), (c.insert v).2)
  | .ask h q => (.read (c.ask h q).1, (c.ask h q).2)
  | .release h =>
    match c.release h with
    | .error error => (.released (.error error), c)
    | .ok (_, c) => (.released (.ok ()), c)

def run (c : Catalogue) : List Call → List Note × Catalogue
  | [] => ([], c)
  | call :: calls =>
    ((c.call call).1 :: ((c.call call).2.run calls).1, ((c.call call).2.run calls).2)

section Ask

variable {c : Catalogue} {h k : Handle} {v : Viewer}

theorem ask_of_get? (hv : c.get? h = some v) (q : Query) :
    (c.ask h q).1 = (v.ask q).1 ∧ (c.ask h q).2.get? h = some (v.ask q).2 := by
  cases q with
  | width =>
    refine ⟨?_, hv⟩
    simp only [ask, width, find, hv]
    rfl
  | height =>
    refine ⟨?_, hv⟩
    simp only [ask, height, find, hv]
    rfl
  | decode rect o stop =>
    obtain ⟨hd, hget⟩ := decode_of_get? hv rect o stop
    exact ⟨congrArg Reading.fresh hd, hget⟩
  | decodeInto rect o target stop =>
    obtain ⟨hd, ht, hget⟩ := decodeInto_of_get? hv rect o target stop
    exact ⟨congrArg₂ Reading.reused hd ht, hget⟩

theorem ask_of_none (hn : c.get? h = none) (q : Query) : c.ask h q = (q.unknown h, c) := by
  cases q with
  | width =>
    simp only [ask, width, find, hn]
    rfl
  | height =>
    simp only [ask, height, find, hn]
    rfl
  | decode rect o stop =>
    simp only [ask, decode, hn]
    rfl
  | decodeInto rect o target stop =>
    simp only [ask, decodeInto, hn]
    rfl

theorem ask_cases (c : Catalogue) (h : Handle) (q : Query) :
    (c.ask h q).2 = c ∨ ∃ v unwound, (c.ask h q).2 = c.update h v unwound := by
  cases hv : c.get? h with
  | none => exact .inl (congrArg Prod.snd (ask_of_none hv q))
  | some v =>
    cases q with
    | width => exact .inl rfl
    | height => exact .inl rfl
    | decode rect o stop =>
      refine .inr ⟨(v.decode rect o stop).2, (v.decode rect o stop).1.isUnwound, ?_⟩
      simp only [ask, decode, hv]
    | decodeInto rect o target stop =>
      refine .inr ⟨(v.decodeInto rect o target stop).2.2,
        (v.decodeInto rect o target stop).1.isUnwound, ?_⟩
      simp only [ask, decodeInto, hv]

theorem get?_ask_of_ne (hk : k ≠ h) (q : Query) : (c.ask h q).2.get? k = c.get? k := by
  obtain hc | ⟨v, unwound, hc⟩ := c.ask_cases h q
  · rw [hc]
  · rw [hc, get?_update_of_ne v unwound hk]

theorem keys_ask (c : Catalogue) (h : Handle) (q : Query) : (c.ask h q).2.keys = c.keys := by
  obtain hc | ⟨v, unwound, hc⟩ := c.ask_cases h q
  · rw [hc]
  · rw [hc, keys_update]

theorem next_ask (c : Catalogue) (h : Handle) (q : Query) : (c.ask h q).2.next = c.next := by
  obtain hc | ⟨v, unwound, hc⟩ := c.ask_cases h q
  · rw [hc]
  · rw [hc]
    rfl

end Ask

end Catalogue

end ImageRegion
