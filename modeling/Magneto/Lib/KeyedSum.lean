import Mathlib.Algebra.BigOperators.Group.Finset.Piecewise
import Mathlib.Algebra.BigOperators.Ring.Finset

/-!
# Sums grouped by a key

A list of keyed numbers, the total of one key, and a weighted sum over the list
as a sum over its keys.
-/

namespace KeyedSum

open Finset

variable {κ : Type*} [DecidableEq κ]

def total (l : List (κ × ℕ)) (k : κ) : ℕ := ((l.filter fun x => x.1 = k).map Prod.snd).sum

def keys (l : List (κ × ℕ)) : Finset κ := (l.map Prod.fst).toFinset

theorem mem_keys {l : List (κ × ℕ)} {k : κ} : k ∈ keys l ↔ ∃ x ∈ l, x.1 = k := by simp [keys]

theorem total_cons (x : κ × ℕ) (l : List (κ × ℕ)) (k : κ) :
    total (x :: l) k = (if x.1 = k then x.2 else 0) + total l k := by
  unfold total
  by_cases h : x.1 = k
  · simp [h]
  · simp [h]

theorem sum_filter_mul (l : List (κ × ℕ)) (s : Finset κ) (c : κ → ℕ) :
    ((l.filter fun x => x.1 ∈ s).map fun x => x.2 * c x.1).sum = ∑ k ∈ s, total l k * c k := by
  induction l with
  | nil => simp [total]
  | cons x l ih =>
    have hsum : ∑ k ∈ s, total (x :: l) k * c k =
        (if x.1 ∈ s then x.2 * c x.1 else 0) + ∑ k ∈ s, total l k * c k := by
      simp only [total_cons, add_mul, sum_add_distrib, ite_mul, zero_mul]
      rw [sum_ite_eq]
    rw [hsum, ← ih]
    by_cases hx : x.1 ∈ s
    · simp [hx]
    · simp [hx]

omit [DecidableEq κ] in
theorem sum_mod_mul (s : Finset κ) (t c : κ → ℕ) (n : ℕ) :
    (∑ k ∈ s, t k * c k) % n = (∑ k ∈ s, t k % n * c k) % n := by
  rw [sum_nat_mod, sum_nat_mod s n fun k => t k % n * c k]
  simp only [Nat.mod_mul_mod]

end KeyedSum
