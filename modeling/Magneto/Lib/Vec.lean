import Mathlib.Data.List.Basic

/-!
# Vectors that are written by index

A vector of the standard library, with the indices at which it was written outside its
size. `reserve` makes room and leaves the size as it is; `resize` changes the size. A
program that stores a list from an index on fills the vector exactly when the vector has
the size for it.
-/

structure Vec (α : Type*) where
  elems : List α
  outside : List ℕ
  deriving DecidableEq, Repr

namespace Vec

variable {α : Type*} (v : Vec α)

def ofList (xs : List α) : Vec α := ⟨xs, []⟩

def size : ℕ := v.elems.length

def reserve (_n : ℕ) : Vec α := v

def resize (n : ℕ) (x : α) : Vec α :=
  { v with elems := v.elems.take n ++ List.replicate (n - v.size) x }

def set (i : ℕ) (x : α) : Vec α :=
  if i < v.size then { v with elems := v.elems.set i x }
  else { v with outside := v.outside ++ [i] }

/-- The loop that stores a list at the indices from `i` on. -/
def store : Vec α → ℕ → List α → Vec α
  | v, _, [] => v
  | v, i, x :: xs => store (v.set i x) (i + 1) xs

theorem size_resize (n : ℕ) (x : α) : (v.resize n x).size = n := by
  simp only [size, resize, List.length_append, List.length_take, List.length_replicate]
  omega

theorem size_set (i : ℕ) (x : α) : (v.set i x).size = v.size := by
  unfold set
  split_ifs
  · simp [size]
  · rfl

theorem size_store (i : ℕ) (xs : List α) : (v.store i xs).size = v.size := by
  induction xs generalizing v i with
  | nil => rfl
  | cons x xs ih => rw [store, ih, size_set]

theorem set_of_lt {i : ℕ} (h : i < v.size) (x : α) :
    v.set i x = { v with elems := v.elems.set i x } := if_pos h

theorem store_of_le {i : ℕ} {xs : List α} (h : i + xs.length ≤ v.size) :
    v.store i xs =
      { v with elems := v.elems.take i ++ xs ++ v.elems.drop (i + xs.length) } := by
  induction xs generalizing v i with
  | nil => simp [store]
  | cons x xs ih =>
    rw [List.length_cons] at h
    have hlt : i < v.size := by omega
    have hsize : i + 1 + xs.length ≤ (v.set i x).size := by
      rw [size_set]
      omega
    have htake : (v.elems.set i x).take (i + 1) = v.elems.take i ++ [x] := by
      rw [List.take_add_one, List.take_set_of_le (Nat.le_refl i), List.getElem?_set_self hlt]
      rfl
    have hdrop : (v.elems.set i x).drop (i + 1 + xs.length) =
        v.elems.drop (i + (x :: xs).length) := by
      rw [List.drop_set_of_lt (by omega), List.length_cons]
      congr 1
      omega
    rw [store, ih _ hsize, set_of_lt v hlt, htake, hdrop]
    simp only [List.append_assoc, List.cons_append, List.nil_append]

theorem store_eq {i : ℕ} {xs : List α} (h : i + xs.length = v.size) :
    v.store i xs = { v with elems := v.elems.take i ++ xs } := by
  rw [store_of_le v (Nat.le_of_eq h), List.drop_of_length_le (Nat.le_of_eq h.symm),
    List.append_nil]

/-- A list is stored as the contents of a vector exactly when it has the vector's size. -/
theorem store_ofList_iff (xs ys : List α) :
    (ofList ys).store 0 xs = ofList xs ↔ ys.length = xs.length := by
  constructor
  · intro h
    have hsize := (ofList ys).size_store 0 xs
    rw [h] at hsize
    exact hsize.symm
  · intro h
    rw [store_eq (ofList ys) ((Nat.zero_add _).trans h.symm)]
    rfl

end Vec
