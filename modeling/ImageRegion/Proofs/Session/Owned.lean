import ImageRegion.Proofs.Catalogue
import ImageRegion.Proofs.Image.Turning
import ImageRegion.Session.State

/-!
What a session owns: one stream for each live image. Streams are counted by a mark that stays on a
stream while it is used, so that a count tells where the streams are.
-/

namespace ImageRegion

namespace Names

section Weight

variable {κ α : Type} {w : α → Nat} {entries : List (κ × α)}

def weight (w : α → Nat) : List (κ × α) → Nat
  | [] => 0
  | entry :: entries => w entry.2 + weight w entries

theorem weight_map (f : α → α) (hf : ∀ value, w (f value) = w value) (entries : List (κ × α)) :
    weight w (entries.map fun entry => (entry.1, f entry.2)) = weight w entries := by
  induction entries with
  | nil => rfl
  | cons entry entries ih => rw [List.map_cons, weight, weight, hf, ih]

section Elements

variable {β : Type} {p : β → Bool}

theorem countP_map_eq_weight (f : α → β) (entries : List (κ × α)) :
    (entries.map fun entry => f entry.2).countP p =
      weight (fun a => if p (f a) then 1 else 0) entries := by
  induction entries with
  | nil => rfl
  | cons entry entries ih => rw [List.map_cons, List.countP_cons, weight, ih, Nat.add_comm]

theorem countP_flatMap_eq_weight {f : α → List β} (hf : ∀ value, (f value).countP p = w value)
    (entries : List (κ × α)) :
    (entries.flatMap fun entry => f entry.2).countP p = weight w entries := by
  induction entries with
  | nil => rfl
  | cons entry entries ih => rw [List.flatMap_cons, List.countP_append, weight, ih, hf]

end Elements

variable [DecidableEq κ]

theorem weight_filter (hkeys : (entries.map Prod.fst).Nodup) (a : κ) :
    weight w (entries.filter fun entry => entry.1 ≠ a) + (entries.lookup a).elim 0 w =
      weight w entries := by
  induction entries with
  | nil => rfl
  | cons entry entries ih =>
    obtain ⟨b, value⟩ := entry
    rw [List.map_cons, List.nodup_cons] at hkeys
    by_cases hb : b = a
    · subst hb
      have hrest : (entries.filter fun entry => entry.1 ≠ b) = entries := by
        rw [List.filter_eq_self]
        intro entry hentry
        have hne : entry.1 ≠ b := fun h => hkeys.1 (List.mem_map.mpr ⟨entry, hentry, h⟩)
        simp [hne]
      rw [List.filter_cons_of_neg (by simp), hrest, List.lookup_cons_self, weight]
      exact Nat.add_comm ..
    · have hne : (a == b) = false := beq_false_of_ne (Ne.symm hb)
      rw [List.filter_cons_of_pos (by simp [hb]), List.lookup_cons, hne, weight, weight,
        Nat.add_assoc, ih hkeys.2]

theorem nodup_keys_filter (hkeys : (entries.map Prod.fst).Nodup) (a : κ) :
    ((entries.filter fun entry => entry.1 ≠ a).map Prod.fst).Nodup :=
  hkeys.sublist (List.Sublist.map _ List.filter_sublist)

theorem nodup_keys_cons_filter (hkeys : (entries.map Prod.fst).Nodup) (a : κ) (value : α) :
    (((a, value) :: entries.filter fun entry => entry.1 ≠ a).map Prod.fst).Nodup := by
  rw [List.map_cons, List.nodup_cons]
  refine ⟨fun hmem => ?_, nodup_keys_filter hkeys a⟩
  obtain ⟨entry, hentry, hkey⟩ := List.mem_map.mp hmem
  exact of_decide_eq_true (List.mem_filter.mp hentry).2 hkey

end Weight

variable {α : Type} {names : Names α} {w : α → Nat}

def Tidy (names : Names α) : Prop := (names.entries.map Prod.fst).Nodup

theorem Tidy.keep (h : names.Tidy) (name : String) (value : α) : (names.keep name value).Tidy :=
  nodup_keys_cons_filter h name value

theorem Tidy.erase (h : names.Tidy) (name : String) : (names.erase name).Tidy :=
  nodup_keys_filter h name

theorem Tidy.map (h : names.Tidy) (f : α → α) : (names.map f).Tidy := by
  unfold Tidy Names.map
  rw [List.map_map]
  exact h

theorem Tidy.weight_keep (h : names.Tidy) (name : String) (value : α) :
    weight w (names.keep name value).entries + (names.get? name).elim 0 w =
      weight w names.entries + w value := by
  have hrest : weight w (names.erase name).entries + (names.get? name).elim 0 w =
      weight w names.entries := weight_filter h name
  have hkept : weight w (names.keep name value).entries =
      w value + weight w (names.erase name).entries := rfl
  omega

theorem Tidy.weight_erase (h : names.Tidy) (name : String) :
    weight w (names.erase name).entries + (names.get? name).elim 0 w = weight w names.entries :=
  weight_filter h name

end Names

/-- What is true of a stream however it has been used. -/
structure Stream.IsMark (mark : Stream → Bool) : Prop where
  turned : ∀ (s : Stream) position, mark (s.turned position) = mark s
  follow : ∀ (s : Stream) file, mark (s.follow file) = mark s

theorem Stream.isMark_true : IsMark fun _ => true := ⟨fun _ _ => rfl, fun _ _ => rfl⟩

def Viewer.count (mark : Stream → Bool) (v : Viewer) : Nat := if mark v.stream then 1 else 0

namespace Viewer

variable {mark : Stream → Bool} (hmark : Stream.IsMark mark) (v : Viewer)

include hmark

theorem count_decode (rect : Rect) (o : Options) (stop : Stop) :
    (v.decode rect o stop).2.count mark = v.count mark := by
  obtain ⟨position, hp⟩ := v.image.decode_turns rect o stop
  unfold count
  rw [show mark (v.decode rect o stop).2.stream = mark v.stream from
    (congrArg mark hp).trans (hmark.turned ..)]

theorem count_decodeInto (rect : Rect) (o : Options) (target : Bitmap) (stop : Stop) :
    (v.decodeInto rect o target stop).2.2.count mark = v.count mark := by
  obtain ⟨position, hp⟩ := v.image.decodeInto_turns rect o target stop
  unfold count
  rw [show mark (v.decodeInto rect o target stop).2.2.stream = mark v.stream from
    (congrArg mark hp).trans (hmark.turned ..)]

theorem count_follow (file : File) : (v.follow file).count mark = v.count mark := by
  unfold count
  rw [show mark (v.follow file).stream = mark v.stream from hmark.follow ..]

end Viewer

namespace Catalogue

def streams (c : Catalogue) : List Stream := c.entries.map fun entry => entry.2.viewer.stream

def count (mark : Stream → Bool) (c : Catalogue) : Nat :=
  Names.weight (fun l => l.viewer.count mark) c.entries

variable {mark : Stream → Bool} {c : Catalogue} {h : Handle} {v w : Viewer}

theorem elim_lookup (c : Catalogue) (h : Handle) :
    (c.entries.lookup h).elim 0 (fun l => l.viewer.count mark) =
      (c.get? h).elim 0 (Viewer.count mark) := by
  unfold get?
  cases c.entries.lookup h with
  | none => rfl
  | some l =>
    rw [Option.map_some, Locked.relock_eq]
    rfl

theorem count_insert (hc : c.keys.Nodup) (v : Viewer) :
    (c.insert v).2.count mark + (c.get? (c.insert v).1).elim 0 (Viewer.count mark) =
      c.count mark + v.count mark := by
  let weight : Nat := Names.weight (fun l => l.viewer.count mark) (remove (c.insert v).1 c.entries)
  have hrest : weight + (c.get? (c.insert v).1).elim 0 (Viewer.count mark) = c.count mark := by
    rw [← elim_lookup]
    exact Names.weight_filter hc _
  have hinserted : (c.insert v).2.count mark = v.count mark + weight := rfl
  omega

theorem count_removed (hc : c.keys.Nodup) (hv : c.get? h = some v) :
    (⟨c.next, remove h c.entries⟩ : Catalogue).count mark + v.count mark = c.count mark := by
  have hrest := Names.weight_filter (w := fun l => l.viewer.count mark) hc h
  rw [elim_lookup, hv] at hrest
  exact hrest

theorem remove_update (c : Catalogue) (h : Handle) (v : Viewer) (unwound : Bool) :
    remove h (c.update h v unwound).entries = remove h c.entries := by
  simp only [update, remove]
  generalize c.entries = entries
  induction entries with
  | nil => rfl
  | cons entry entries ih =>
    obtain ⟨key, locked⟩ := entry
    by_cases hkey : key = h
    · simpa [hkey] using ih
    · simpa [hkey] using ih

theorem count_update (hc : c.keys.Nodup) (hv : c.get? h = some v)
    (hw : w.count mark = v.count mark) (unwound : Bool) :
    (c.update h w unwound).count mark = c.count mark := by
  have hkeys : (c.update h w unwound).keys.Nodup := by
    rw [keys_update]
    exact hc
  have hbefore : _ + v.count mark = c.count mark := count_removed hc hv
  have hafter : _ + w.count mark = (c.update h w unwound).count mark :=
    count_removed hkeys (get?_update hv w unwound)
  rw [remove_update, hw] at hafter
  exact hafter.symm.trans hbefore

theorem count_follow (hmark : Stream.IsMark mark) (c : Catalogue) (file : File) :
    (c.follow file).count mark = c.count mark :=
  Names.weight_map (fun l : Locked => ⟨l.viewer.follow file, l.isMarked⟩)
    (fun l => l.viewer.count_follow hmark file) c.entries

theorem keys_follow (c : Catalogue) (file : File) : (c.follow file).keys = c.keys := by
  unfold keys follow
  rw [List.map_map]
  rfl

theorem nodup_keys_insert (hc : c.keys.Nodup) (v : Viewer) : (c.insert v).2.keys.Nodup :=
  Names.nodup_keys_cons_filter hc _ _

theorem nodup_keys_remove (hc : c.keys.Nodup) (h : Handle) :
    (⟨c.next, remove h c.entries⟩ : Catalogue).keys.Nodup :=
  Names.nodup_keys_filter hc h

theorem nodup_keys_update (hc : c.keys.Nodup) (h : Handle) (v : Viewer) (unwound : Bool) :
    (c.update h v unwound).keys.Nodup := by
  rw [keys_update]
  exact hc

theorem count_decode (hmark : Stream.IsMark mark) (hc : c.keys.Nodup) (h : Handle) (rect : Rect)
    (o : Options) (stop : Stop) : (c.decode h rect o stop).2.count mark = c.count mark ∧
      (c.decode h rect o stop).2.keys.Nodup := by
  unfold decode
  split
  · exact ⟨rfl, hc⟩
  next v hv =>
    exact ⟨count_update hc hv (v.count_decode hmark rect o stop) _, nodup_keys_update hc _ _ _⟩

theorem count_decodeInto (hmark : Stream.IsMark mark) (hc : c.keys.Nodup) (h : Handle) (rect : Rect)
    (o : Options) (target : Bitmap) (stop : Stop) :
    (c.decodeInto h rect o target stop).2.2.count mark = c.count mark ∧
      (c.decodeInto h rect o target stop).2.2.keys.Nodup := by
  unfold decodeInto
  split
  · exact ⟨rfl, hc⟩
  next v hv =>
    exact ⟨count_update hc hv (v.count_decodeInto hmark rect o target stop) _,
      nodup_keys_update hc _ _ _⟩

theorem countP_streams (c : Catalogue) : c.streams.countP mark = c.count mark :=
  Names.countP_map_eq_weight (fun l => l.viewer.stream) c.entries

end Catalogue

namespace Session

def owned (s : Session) : List Stream :=
  s.viewers.entries.map (fun entry => entry.2.stream) ++ s.shared.streams ++
    s.catalogues.entries.flatMap fun entry => entry.2.streams

def count (mark : Stream → Bool) (s : Session) : Nat :=
  Names.weight (Viewer.count mark) s.viewers.entries + s.shared.count mark +
    Names.weight (Catalogue.count mark) s.catalogues.entries

theorem countP_owned (mark : Stream → Bool) (s : Session) : s.owned.countP mark = s.count mark := by
  have hviewers : _ = Names.weight (Viewer.count mark) s.viewers.entries :=
    Names.countP_map_eq_weight Viewer.stream s.viewers.entries
  have hcatalogues : _ = Names.weight (Catalogue.count mark) s.catalogues.entries :=
    Names.countP_flatMap_eq_weight Catalogue.countP_streams s.catalogues.entries
  rw [owned, count, List.countP_append, List.countP_append, Catalogue.countP_streams, hviewers,
    hcatalogues]

structure Tidy (s : Session) : Prop where
  viewers : s.viewers.Tidy
  catalogues : s.catalogues.Tidy
  shared : s.shared.keys.Nodup
  named : ∀ entry ∈ s.catalogues.entries, entry.2.keys.Nodup

end Session

end ImageRegion
