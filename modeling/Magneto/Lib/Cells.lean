import Mathlib.Data.List.Basic

/-!
# Numbered cells

Pieces of a memory of numbered cells: a piece is written, filled or read, and
what was not touched reads as before.
-/

namespace Cells

variable {α : Type*} {mem mem' : ℕ → α} {p q n i a b : ℕ} {xs : List α} {x : α}

def write (mem : ℕ → α) (p : ℕ) (xs : List α) : ℕ → α :=
  fun i => if p ≤ i then (xs[i - p]?).getD (mem i) else mem i

def fill (mem : ℕ → α) (p q : ℕ) (x : α) : ℕ → α :=
  fun i => if p ≤ i ∧ i < q then x else mem i

def read (mem : ℕ → α) (p n : ℕ) : List α := (List.range n).map fun i => mem (p + i)

def Agree (mem mem' : ℕ → α) (p q : ℕ) : Prop := ∀ i, p ≤ i → i < q → mem i = mem' i

def Filled (mem : ℕ → α) (p q : ℕ) (x : α) : Prop := ∀ i, p ≤ i → i < q → mem i = x

theorem Agree.mono (h : Agree mem mem' p q) (ha : p ≤ a) (hb : b ≤ q) : Agree mem mem' a b :=
  fun i hi hlt => h i (Nat.le_trans ha hi) (Nat.lt_of_lt_of_le hlt hb)

theorem Agree.symm (h : Agree mem mem' p q) : Agree mem' mem p q :=
  fun i hi hlt => (h i hi hlt).symm

theorem Agree.trans {mem'' : ℕ → α} (h : Agree mem mem' p q) (h' : Agree mem' mem'' p q) :
    Agree mem mem'' p q :=
  fun i hi hlt => (h i hi hlt).trans (h' i hi hlt)

theorem Filled.mono (h : Filled mem p q x) (ha : p ≤ a) (hb : b ≤ q) : Filled mem a b x :=
  fun i hi hlt => h i (Nat.le_trans ha hi) (Nat.lt_of_lt_of_le hlt hb)

theorem Filled.congr (h : Filled mem p q x) (hag : Agree mem' mem p q) : Filled mem' p q x :=
  fun i hi hlt => (hag i hi hlt).trans (h i hi hlt)

theorem Filled.append (h : Filled mem p q x) (h' : Filled mem q n x) : Filled mem p n x := by
  intro i hi hlt
  obtain hiq | hqi := Nat.lt_or_ge i q
  · exact h i hi hiq
  · exact h' i hqi hlt

theorem filled_fill : Filled (fill mem p q x) p q x := fun _ hi hlt => if_pos ⟨hi, hlt⟩

theorem agree_write (h : b ≤ p ∨ p + xs.length ≤ a) : Agree (write mem p xs) mem a b := by
  intro i hi hlt
  unfold write
  split_ifs with hp
  · rw [List.getElem?_eq_none (by omega), Option.getD_none]
  · rfl

theorem agree_fill (h : b ≤ p ∨ q ≤ a) : Agree (fill mem p q x) mem a b :=
  fun _ hi hlt => if_neg (by omega)

theorem length_read : (read mem p n).length = n := by
  rw [read, List.length_map, List.length_range]

theorem getElem_read (h : i < (read mem p n).length) : (read mem p n)[i] = mem (p + i) := by
  simp [read]

theorem read_congr (h : Agree mem mem' p (p + n)) : read mem p n = read mem' p n :=
  List.map_congr_left fun i hi => by
    have hlt := List.mem_range.mp hi
    exact h (p + i) (Nat.le_add_right p i) (by omega)

theorem take_read (h : a ≤ n) : (read mem p n).take a = read mem p a := by
  refine List.ext_getElem (by simp [length_read, h]) fun i hi hi' => ?_
  rw [List.getElem_take, getElem_read, getElem_read]

theorem read_write (mem : ℕ → α) (p : ℕ) (xs : List α) :
    read (write mem p xs) p xs.length = xs := by
  refine List.ext_getElem length_read fun i hi hi' => ?_
  rw [getElem_read, write, if_pos (Nat.le_add_right p i), Nat.add_sub_cancel_left,
    List.getElem?_eq_getElem hi', Option.getD_some]

theorem read_eq_replicate (h : Filled mem p (p + n) x) : read mem p n = List.replicate n x := by
  refine List.ext_getElem (length_read.trans List.length_replicate.symm) fun i hi hi' => ?_
  have hlt : i < n := by rwa [length_read] at hi
  rw [getElem_read, List.getElem_replicate]
  exact h (p + i) (Nat.le_add_right p i) (by omega)

end Cells
