import Mathlib.Data.List.Perm.Basic

/-!
# Lists updated at one position

What replacing, taking out or appending one element does to counts, filtered
lists and concatenations.
-/

namespace List

variable {α β : Type*}

theorem countP_set_of_not (p : α → Bool) {l : List α} {i : ℕ} {a b : α} (h : l[i]? = some a)
    (ha : p a = false) : (l.set i b).countP p = l.countP p + if p b then 1 else 0 := by
  induction l generalizing i with
  | nil => simp at h
  | cons x l ih =>
    cases i with
    | zero =>
      obtain rfl : x = a := by simpa using h
      simp [countP_cons, ha]
    | succ i =>
      have hi : l[i]? = some a := by simpa using h
      simp only [set_cons_succ, countP_cons, ih hi]
      omega

theorem filterMap_set_of_eq {f : α → Option β} {l : List α} {i : ℕ} {a b : α}
    (h : l[i]? = some a) (he : f b = f a) : (l.set i b).filterMap f = l.filterMap f := by
  induction l generalizing i with
  | nil => rfl
  | cons x l ih =>
    cases i with
    | zero =>
      obtain rfl : x = a := by simpa using h
      simp only [set_cons_zero, filterMap_cons, he]
    | succ i =>
      simp only [set_cons_succ, filterMap_cons, ih (by simpa using h)]

theorem flatMap_set_perm (f : α → List β) {l : List α} {i : ℕ} {a : α} (h : l[i]? = some a)
    (b : α) : ((l.set i b).flatMap f ++ f a).Perm (l.flatMap f ++ f b) := by
  induction l generalizing i with
  | nil => simp at h
  | cons x l ih =>
    cases i with
    | zero =>
      obtain rfl : x = a := by simpa using h
      simp only [set_cons_zero, flatMap_cons, append_assoc]
      exact (perm_append_comm.trans (perm_append_comm.append_right _)).trans
        (by simp only [append_assoc]; exact Perm.refl _)
    | succ i =>
      simp only [set_cons_succ, flatMap_cons, append_assoc]
      exact (ih (by simpa using h)).append_left _

theorem flatMap_set_append (f : α → List β) {l : List α} {i : ℕ} {a b : α} (h : l[i]? = some a)
    {δ : List β} (hb : f b = f a ++ δ) : ((l.set i b).flatMap f).Perm (l.flatMap f ++ δ) := by
  have hset := flatMap_set_perm f h b
  rw [hb, ← append_assoc] at hset
  refine (perm_append_right_iff (f a)).mp (hset.trans ?_)
  rw [append_assoc, append_assoc]
  exact perm_append_comm.append_left _

theorem any_set_or (f : α → Bool) {l : List α} {i : ℕ} {a b : α} (h : l[i]? = some a) {d : Bool}
    (hb : f b = (f a || d)) : (l.set i b).any f = (l.any f || d) := by
  induction l generalizing i with
  | nil => simp at h
  | cons x l ih =>
    cases i with
    | zero =>
      obtain rfl : x = a := by simpa using h
      simp only [set_cons_zero, any_cons, hb, Bool.or_assoc, Bool.or_comm d]
    | succ i => simp only [set_cons_succ, any_cons, ih (by simpa using h), Bool.or_assoc]

theorem mapIdx_eq_set {f : ℕ → α → α} {g : α → α} {l : List α} {i : ℕ} {a : α}
    (h : l[i]? = some a) (hf : ∀ j b, l[j]? = some b → j ≠ i → f j b = g b) :
    l.mapIdx f = (l.map g).set i (f i a) := by
  apply ext_getElem?
  intro j
  rw [getElem?_mapIdx, getElem?_set, length_map, getElem?_map]
  by_cases hij : i = j
  · subst hij
    rw [h, if_pos rfl, if_pos (getElem?_eq_some_iff.mp h).1]
    rfl
  · rw [if_neg hij]
    cases hb : l[j]? with
    | none => rfl
    | some b => exact congrArg some (hf j b hb (Ne.symm hij))

theorem perm_cons_eraseP_of_find? {p : α → Bool} {l : List α} {a : α} (h : l.find? p = some a) :
    l.Perm (a :: l.eraseP p) := by
  induction l with
  | nil => simp at h
  | cons x l ih =>
    by_cases hx : p x = true
    · obtain rfl : x = a := by simpa [hx] using h
      simp [hx]
    · rw [find?_cons_of_neg hx] at h
      rw [eraseP_cons_of_neg hx]
      exact ((ih h).cons x).trans (Perm.swap a x _)

theorem getElem?_append_one {l : List α} {a : α} {i : ℕ} (hi : i ≠ l.length) :
    (l ++ [a])[i]? = l[i]? := by
  rcases Nat.lt_or_gt_of_ne hi with hlt | hgt
  · exact getElem?_append_left hlt
  · rw [getElem?_append_right (Nat.le_of_lt hgt), getElem?_eq_none (Nat.le_of_lt hgt),
      getElem?_eq_none (by simp; omega)]

theorem exists_append_of_getElem? {l : List α} {a : α} {i : ℕ} (h : l[i]? = some a) :
    ∃ l₁ l₂, l = l₁ ++ a :: l₂ ∧ l₁.length = i := by
  obtain ⟨hi, rfl⟩ := getElem?_eq_some_iff.mp h
  refine ⟨l.take i, l.drop (i + 1), ?_, length_take_of_le (Nat.le_of_lt hi)⟩
  rw [← drop_eq_getElem_cons hi, take_append_drop]

end List
