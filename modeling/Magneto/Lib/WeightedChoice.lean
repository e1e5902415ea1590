import Mathlib.Algebra.BigOperators.Group.List.Basic
import Mathlib.Algebra.GroupWithZero.Nat
import Mathlib.Data.Finset.Card
import Mathlib.Order.Interval.Finset.Nat

/-!
# Choosing a position by weight

A ticket below the total weight chooses the position whose interval of
cumulative weights contains it, so that a position is chosen by as many tickets
as it weighs.
-/

namespace WeightedChoice

def choose : List ℕ → ℕ → Option ℕ
  | [], _ => none
  | w :: ws, k => if k < w then some 0 else (choose ws (k - w)).map (· + 1)

theorem choose_isSome_iff (ws : List ℕ) (k : ℕ) : (choose ws k).isSome ↔ k < ws.sum := by
  induction ws generalizing k with
  | nil => simp [choose]
  | cons w ws ih =>
    rw [choose, List.sum_cons]
    split_ifs with h
    · simp only [Option.isSome_some, true_iff]
      omega
    · rw [Option.isSome_map, ih]
      omega

theorem choose_lt_length {ws : List ℕ} {k i : ℕ} (h : choose ws k = some i) : i < ws.length := by
  induction ws generalizing k i with
  | nil => simp [choose] at h
  | cons w ws ih =>
    rw [choose] at h
    split_ifs at h
    · obtain rfl := Option.some.inj h
      exact Nat.succ_pos _
    · obtain ⟨j, hj, rfl⟩ := Option.map_eq_some_iff.mp h
      exact Nat.succ_lt_succ (ih hj)

theorem choose_eq_some_iff {ws : List ℕ} {k i : ℕ} (hi : i < ws.length) :
    choose ws k = some i ↔ (ws.take i).sum ≤ k ∧ k < (ws.take (i + 1)).sum := by
  induction ws generalizing k i with
  | nil => cases hi
  | cons w ws ih =>
    rw [choose]
    cases i with
    | zero =>
      split_ifs with h
      · simpa using h
      · simpa using Nat.not_lt.mp h
    | succ i =>
      have hi' : i < ws.length := Nat.lt_of_succ_lt_succ hi
      simp only [List.take_succ_cons, List.sum_cons]
      split_ifs with h
      · simp only [Option.some.injEq, Nat.zero_ne_add_one, false_iff, not_and]
        omega
      · have hmap : Option.map (· + 1) (choose ws (k - w)) = some (i + 1) ↔
            choose ws (k - w) = some i := by
          simp [Option.map_eq_some_iff]
        rw [hmap, ih hi']
        omega

/-- A position is chosen by as many tickets as it weighs. -/
theorem card_choose {ws : List ℕ} {i w : ℕ} (hi : ws[i]? = some w) :
    ((Finset.range ws.sum).filter fun k => choose ws k = some i).card = w := by
  obtain ⟨hlt, hw⟩ := List.getElem?_eq_some_iff.mp hi
  have hsucc : (ws.take (i + 1)).sum = (ws.take i).sum + w := by
    rw [← hw]
    exact List.sum_take_succ ws i hlt
  have hle : (ws.take (i + 1)).sum ≤ ws.sum := by
    conv_rhs => rw [← List.sum_take_add_sum_drop ws (i + 1)]
    exact Nat.le_add_right _ _
  have heq : (Finset.range ws.sum).filter (fun k => choose ws k = some i) =
      Finset.Ico (ws.take i).sum (ws.take (i + 1)).sum := by
    ext k
    rw [Finset.mem_filter, Finset.mem_range, choose_eq_some_iff hlt, Finset.mem_Ico]
    exact ⟨And.right, fun h => ⟨h.2.trans_le hle, h⟩⟩
  rw [heq, Nat.card_Ico, hsucc, Nat.add_sub_cancel_left]

end WeightedChoice
