namespace ImageRegion.Packing

variable {α β : Type}

theorem drop_flatMap (g : α → List β) {k : Nat} {l : List α} (hk : ∀ x ∈ l, (g x).length = k)
    (i : Nat) : (l.flatMap g).drop (i * k) = (l.drop i).flatMap g := by
  induction l generalizing i with
  | nil => simp
  | cons x l ih =>
    have hx : (g x).length = k := hk x (by simp)
    have hl : ∀ x ∈ l, (g x).length = k := fun x hx => hk x (List.mem_cons_of_mem _ hx)
    cases i with
    | zero => simp
    | succ i =>
      rw [Nat.succ_mul, Nat.add_comm, ← List.drop_drop, List.flatMap_cons, List.drop_succ_cons]
      rw [List.drop_left' hx]
      exact ih hl i

theorem size_flatMap {xs : Array α} {f : α → Array β} {k : Nat} (hk : ∀ x ∈ xs, (f x).size = k) :
    (xs.flatMap f).size = xs.size * k := by
  have h : xs.map (fun x => (f x).size) = .replicate xs.size k := by
    rw [Array.eq_replicate_iff]
    exact ⟨Array.size_map, fun b hb => by
      obtain ⟨x, hx, rfl⟩ := Array.mem_map.mp hb
      exact hk x hx⟩
  rw [Array.size_flatMap, h, Array.sum_replicate_nat]

theorem extract_flatMap (xs : Array α) (f : α → Array β) {k : Nat}
    (hk : ∀ x ∈ xs, (f x).size = k) {i a b : Nat} (hi : i < xs.size) (hb : b ≤ k) :
    (xs.flatMap f).extract (i * k + a) (i * k + b) = (f xs[i]).extract a b := by
  have hd := drop_flatMap (fun x => (f x).toList) (l := xs.toList) (k := k)
    (fun x hx => by simpa using hk x (by simpa using hx)) i
  have hs : (f xs[i]).toList.length = k := by simpa using hk _ (Array.getElem_mem hi)
  apply Array.toList_inj.mp
  rw [Array.toList_extract, Array.toList_extract, Array.toList_flatMap, List.extract_eq_take_drop,
    List.extract_eq_take_drop, ← List.drop_drop, hd,
    List.drop_eq_getElem_cons (l := xs.toList) (i := i) (by simpa using hi), List.flatMap_cons,
    Array.getElem_toList]
  have hn : i * k + b - (i * k + a) = b - a := by omega
  rw [hn]
  by_cases ha : a ≤ k
  · rw [List.drop_append_of_le_length (by omega), List.take_append_of_le_length (by
      rw [List.length_drop]; omega)]
  · have : b - a = 0 := by omega
    rw [this, List.take_zero, List.take_zero]

theorem getElem?_flatMap {xs : Array α} {f : α → Array β} {k : Nat}
    (hk : ∀ x ∈ xs, (f x).size = k) {i j : Nat} (hi : i < xs.size) (hj : j < k) :
    (xs.flatMap f)[i * k + j]? = (f xs[i])[j]? := by
  have h := congrArg (fun ys => ys[0]?) (extract_flatMap xs f hk hi (a := j) (b := j + 1) hj)
  have hs := size_flatMap hk
  have hb : i * k + k ≤ xs.size * k := Nat.succ_mul i k ▸ Nat.mul_le_mul_right k hi
  have hf : (f xs[i]).size = k := hk _ (Array.getElem_mem hi)
  rw [Array.getElem?_extract, Array.getElem?_extract, if_pos (by omega), if_pos (by omega)] at h
  exact h

theorem extract_eq_ofFn {xs : Array α} {start count : Nat}
    (h : start + count ≤ xs.size) (d : α) :
    xs.extract start (start + count) = .ofFn fun j : Fin count => xs.getD (start + j) d := by
  apply Array.ext
  · rw [Array.size_extract, Array.size_ofFn]
    omega
  · intro j hj _
    rw [Array.size_extract] at hj
    rw [Array.getElem_extract, Array.getElem_ofFn, Array.getD_eq_getD_getElem?,
      Array.getElem?_eq_getElem (by omega), Option.getD_some]

theorem getD_extract {xs : Array α} {start stop j : Nat} (d : α) (h : start + j < stop) :
    (xs.extract start stop).getD j d = xs.getD (start + j) d := by
  rw [Array.getD_eq_getD_getElem?, Array.getD_eq_getD_getElem?, Array.getElem?_extract]
  split
  · rfl
  · rw [Array.getElem?_eq_none (by omega)]

theorem flatMap_extract (xs : Array α) (n k : Nat) :
    (Array.range n).flatMap (fun i => xs.extract (i * k) (i * k + k)) = xs.extract 0 (n * k) := by
  induction n with
  | zero => simp
  | succ n ih =>
    rw [Array.range_succ, Array.flatMap_append, Array.flatMap_singleton, ih,
      Array.extract_append_extract, Nat.zero_min, Nat.max_eq_right (by omega), Nat.succ_mul]

end ImageRegion.Packing
