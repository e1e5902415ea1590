import Mathlib.Data.List.Nodup
import Mathlib.Data.List.Perm.Basic

/-!
# Lists keyed by a field

A list whose elements have distinct keys is a finite map. Taking out a key and
inserting an element whose key is new are described by what the list then holds
at each key.
-/

namespace KeyedList

variable {α κ : Type*} [DecidableEq κ] (key : α → κ)

def get (l : List α) (k : κ) : Option α := l.find? fun a => key a = k

def erase (l : List α) (k : κ) : List α := l.eraseP fun a => key a = k

def insertNew (l : List α) (a : α) : List α := if l.any fun b => key b = key a then l else a :: l

def Keyed (l : List α) : Prop := (l.map key).Nodup

variable {key} {l : List α} {a : α} {k m : κ}

theorem get_cons : get key (a :: l) k = if key a = k then some a else get key l k := by
  unfold get
  by_cases h : key a = k
  · simp [h]
  · simp [h]

theorem get_eq_none : get key l k = none ↔ k ∉ l.map key := by
  simp [get, List.find?_eq_none]

theorem erase_of_get_none (h : get key l k = none) : erase key l k = l :=
  List.eraseP_of_forall_not fun b hb => by simpa using List.find?_eq_none.mp h b hb

theorem mem_of_get (h : get key l k = some a) : a ∈ l ∧ key a = k :=
  ⟨List.mem_of_find?_eq_some h, by simpa using List.find?_some h⟩

theorem get_of_mem (hl : Keyed key l) (ha : a ∈ l) : get key l (key a) = some a := by
  induction l with
  | nil => simp at ha
  | cons b l ih =>
    obtain ⟨hb, hl⟩ := List.nodup_cons.mp hl
    rw [get_cons]
    rcases List.mem_cons.mp ha with rfl | ha
    · exact if_pos rfl
    · have hne : key b ≠ key a := fun h => hb (h.symm ▸ List.mem_map_of_mem ha)
      rw [if_neg hne]
      exact ih hl ha

theorem mem_iff_get (hl : Keyed key l) : a ∈ l ↔ get key l (key a) = some a :=
  ⟨get_of_mem hl, fun h => (mem_of_get h).1⟩

theorem Keyed.erase (hl : Keyed key l) (k : κ) : Keyed key (erase key l k) :=
  hl.sublist (List.eraseP_sublist.map key)

theorem get_erase (hl : Keyed key l) (k m : κ) :
    get key (erase key l k) m = if m = k then none else get key l m := by
  induction l with
  | nil => simp [get, KeyedList.erase]
  | cons b l ih =>
    obtain ⟨hb, hl⟩ := List.nodup_cons.mp hl
    by_cases hk : key b = k
    · have herase : KeyedList.erase key (b :: l) k = l := by simp [KeyedList.erase, hk]
      rw [herase, get_cons]
      split_ifs with hm hbm
      · exact get_eq_none.mpr (hm ▸ hk ▸ hb)
      · exact absurd (hbm.symm.trans hk) hm
      · rfl
    · have herase : KeyedList.erase key (b :: l) k = b :: KeyedList.erase key l k := by
        simp [KeyedList.erase, hk]
      rw [herase, get_cons, get_cons, ih hl]
      split_ifs with hbm hm hm
      · exact absurd (hbm.trans hm) hk
      · rfl
      · rfl
      · rfl

theorem Keyed.insertNew (hl : Keyed key l) (a : α) : Keyed key (insertNew key l a) := by
  unfold KeyedList.insertNew
  split_ifs with h
  · exact hl
  · refine List.nodup_cons.mpr ⟨fun hmem => h ?_, hl⟩
    obtain ⟨b, hb, he⟩ := List.mem_map.mp hmem
    exact List.any_eq_true.mpr ⟨b, hb, by simpa using he⟩

theorem get_insertNew (a : α) (m : κ) :
    get key (insertNew key l a) m =
      if m = key a then (get key l m).or (some a) else get key l m := by
  unfold KeyedList.insertNew
  split_ifs with h hm hm
  · obtain ⟨b, hb, he⟩ := List.any_eq_true.mp h
    have hsome : get key l m ≠ none := by
      rw [ne_eq, get_eq_none, not_not, hm]
      exact List.mem_map.mpr ⟨b, hb, by simpa using he⟩
    obtain ⟨c, hc⟩ := Option.ne_none_iff_exists'.mp hsome
    rw [hc]
    rfl
  · rfl
  · have hnone : get key l m = none := by
      rw [get_eq_none, hm]
      intro hmem
      obtain ⟨b, hb, he⟩ := List.mem_map.mp hmem
      exact h (List.any_eq_true.mpr ⟨b, hb, by simpa using he⟩)
    rw [get_cons, if_pos hm.symm, hnone]
    rfl
  · rw [get_cons, if_neg (Ne.symm hm)]

end KeyedList
