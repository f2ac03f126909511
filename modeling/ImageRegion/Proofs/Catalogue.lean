import ImageRegion.Catalogue
import ImageRegion.Session.Names

namespace ImageRegion.Catalogue

theorem get?_insert (c : Catalogue) (v : Viewer) : (c.insert v).2.get? (c.insert v).1 = some v := by
  simp only [get?, insert, List.lookup_cons_self, Option.map_some, Locked.relock_eq]

theorem get?_update {c : Catalogue} {h : Handle} {v : Viewer} (hv : c.get? h = some v)
    (w : Viewer) (unwound : Bool) : (c.update h w unwound).get? h = some w := by
  obtain ⟨next, entries⟩ := c
  simp only [get?, update] at hv ⊢
  induction entries with
  | nil => cases hv
  | cons entry entries ih =>
    obtain ⟨key, locked⟩ := entry
    rw [List.map_cons]
    by_cases hk : key = h
    · simp only [hk, if_true, List.lookup_cons_self, Option.map_some, Locked.relock_eq]
    · have hne : (h == key) = false := beq_false_of_ne (Ne.symm hk)
      simp only [hk, if_false, List.lookup_cons, hne] at hv ⊢
      exact ih hv

variable {c : Catalogue} {h : Handle} {v : Viewer}

theorem decode_of_get? (hv : c.get? h = some v) (rect : Rect) (o : Options) (stop : Stop) :
    (c.decode h rect o stop).1 = (v.decode rect o stop).1 ∧
      (c.decode h rect o stop).2.get? h = some (v.decode rect o stop).2 := by
  unfold decode
  rw [hv]
  exact ⟨rfl, get?_update hv _ _⟩

theorem decodeInto_of_get? (hv : c.get? h = some v) (rect : Rect) (o : Options)
    (target : Bitmap) (stop : Stop) :
    (c.decodeInto h rect o target stop).1 = (v.decodeInto rect o target stop).1 ∧
      (c.decodeInto h rect o target stop).2.1 = (v.decodeInto rect o target stop).2.1 ∧
      (c.decodeInto h rect o target stop).2.2.get? h =
        some (v.decodeInto rect o target stop).2.2 := by
  unfold decodeInto
  rw [hv]
  exact ⟨rfl, rfl, get?_update hv _ _⟩

def keys (c : Catalogue) : List Handle := c.entries.map fun entry => entry.1

variable {k : Handle}

theorem mem_keys_iff : h ∈ c.keys ↔ ∃ v, c.get? h = some v := by
  constructor
  · intro hmem
    obtain ⟨entry, hentry, hkey⟩ := List.mem_map.mp hmem
    cases hl : c.entries.lookup h with
    | none => exact absurd hkey.symm (bne_iff_ne.mp (List.lookup_eq_none_iff.mp hl entry hentry))
    | some locked =>
      refine ⟨locked.viewer, ?_⟩
      rw [get?, hl, Option.map_some, Locked.relock_eq]
  · rintro ⟨v, hv⟩
    obtain ⟨locked, hl, _⟩ := Option.map_eq_some_iff.mp hv
    obtain ⟨before, later, hentries, _⟩ := List.lookup_eq_some_iff.mp hl
    rw [keys, hentries, List.map_append]
    exact List.mem_append_right _ (List.mem_cons_self ..)

theorem keys_remove (h : Handle) (entries : List (Handle × Locked)) :
    (remove h entries).map (fun entry => entry.1) =
      (entries.map fun entry => entry.1).filter fun key => key ≠ h := by
  rw [List.filter_map]
  rfl

theorem get?_insert_of_ne (v : Viewer) (hk : k ≠ (c.insert v).1) :
    (c.insert v).2.get? k = c.get? k := by
  have hne : (k == (c.insert v).1) = false := beq_false_of_ne hk
  have hrest : (remove (c.insert v).1 c.entries).lookup k = c.entries.lookup k :=
    Names.lookup_filter_of_ne hk c.entries
  simp only [get?, insert, List.lookup_cons] at hne hrest ⊢
  rw [hne, hrest]

theorem keys_insert (c : Catalogue) (v : Viewer) :
    (c.insert v).2.keys = (c.insert v).1 :: c.keys.filter fun key => key ≠ (c.insert v).1 :=
  congrArg ((c.insert v).1 :: ·) (keys_remove _ _)

theorem get?_update_of_ne (v : Viewer) (unwound : Bool) (hk : k ≠ h) :
    (c.update h v unwound).get? k = c.get? k := by
  obtain ⟨next, entries⟩ := c
  simp only [get?, update]
  congr 1
  induction entries with
  | nil => rfl
  | cons entry entries ih =>
    obtain ⟨key, locked⟩ := entry
    rw [List.map_cons, List.lookup_cons, ih]
    by_cases hkey : key = h
    · have hne : (k == h) = false := beq_false_of_ne hk
      simp only [hkey, if_true, List.lookup_cons, hne]
    · simp only [hkey, if_false, List.lookup_cons]

theorem keys_update (c : Catalogue) (h : Handle) (v : Viewer) (unwound : Bool) :
    (c.update h v unwound).keys = c.keys := by
  simp only [keys, update, List.map_map]
  apply List.map_congr_left
  rintro ⟨key, locked⟩ _
  by_cases hkey : key = h
  · simp only [Function.comp_apply, hkey, if_true]
  · simp only [Function.comp_apply, hkey, if_false]

theorem get?_removed : (⟨c.next, remove h c.entries⟩ : Catalogue).get? h = none := by
  rw [get?, show (remove h c.entries).lookup h = none from Names.lookup_filter_self h c.entries]
  rfl

theorem get?_removed_of_ne (hk : k ≠ h) :
    (⟨c.next, remove h c.entries⟩ : Catalogue).get? k = c.get? k :=
  congrArg (Option.map Locked.relock) (Names.lookup_filter_of_ne hk c.entries)

end ImageRegion.Catalogue
