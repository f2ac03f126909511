namespace ImageRegion

structure Names (α : Type) where
  entries : List (String × α)

namespace Names

variable {α : Type}

def empty : Names α := ⟨[]⟩

def get? (names : Names α) (name : String) : Option α := names.entries.lookup name

def erase (names : Names α) (name : String) : Names α :=
  ⟨names.entries.filter fun entry => entry.1 ≠ name⟩

def keep (names : Names α) (name : String) (value : α) : Names α :=
  ⟨(name, value) :: (names.erase name).entries⟩

def map (f : α → α) (names : Names α) : Names α :=
  ⟨names.entries.map fun (name, value) => (name, f value)⟩

section Lookup

variable {κ : Type} [DecidableEq κ] {a b : κ}

theorem lookup_filter_of_ne (h : b ≠ a) (entries : List (κ × α)) :
    (entries.filter fun entry => entry.1 ≠ a).lookup b = entries.lookup b := by
  induction entries with
  | nil => rfl
  | cons entry entries ih =>
    obtain ⟨c, value⟩ := entry
    by_cases hc : c = a
    · have hb : (b == c) = false := by simp [hc, h]
      rw [List.filter_cons_of_neg (by simp [hc]), ih, List.lookup_cons, hb]
    · rw [List.filter_cons_of_pos (by simp [hc]), List.lookup_cons, List.lookup_cons, ih]

theorem lookup_filter_self (a : κ) (entries : List (κ × α)) :
    (entries.filter fun entry => entry.1 ≠ a).lookup a = none := by
  rw [List.lookup_eq_none_iff]
  intro entry hentry
  have hne : entry.1 ≠ a := of_decide_eq_true (List.mem_filter.mp hentry).2
  simp [hne.symm]

end Lookup

theorem get?_keep_self (names : Names α) (name : String) (value : α) :
    (names.keep name value).get? name = some value := by
  simp [get?, keep]

theorem get?_keep_of_ne (names : Names α) {a b : String} (value : α) (h : b ≠ a) :
    (names.keep a value).get? b = names.get? b := by
  have h' : (b == a) = false := by simp [h]
  simp only [get?, keep, erase, List.lookup_cons, h']
  exact lookup_filter_of_ne h names.entries

end Names

end ImageRegion
