import Mathlib.Data.Nat.Prime.Basic
import Mathlib.Data.Nat.Sqrt
import Mathlib.Data.Nat.ModEq
import Mathlib.Data.Int.GCD

/-!
# Probe sequences and trial division

A walk of constant step through the residues modulo `n` meets every residue
within `n` steps if the step is prime to `n`. Whether a number is prime is
decided here by trial division, with a check the kernel can run.
-/

namespace Probe

theorem exists_step {n step : ℕ} (hn : 0 < n) (hc : Nat.Coprime step n) (pos : ℕ) {q : ℕ}
    (hq : q < n) : ∃ i < n, (pos + i * step) % n = q := by
  obtain rfl | h1 := Nat.eq_or_lt_of_le (Nat.one_le_iff_ne_zero.mpr hn.ne')
  · exact ⟨0, hn, by omega⟩
  obtain ⟨m, -, hm⟩ := Nat.exists_mul_mod_eq_one_of_coprime hc h1
  -- the distance from `pos` to `q`, and how many steps it takes
  let dist := q + (n - pos % n)
  refine ⟨dist * m % n, Nat.mod_lt _ hn, ?_⟩
  have hstep : dist * m % n * step ≡ dist [MOD n] := by
    have hone : m * step ≡ 1 [MOD n] := by
      rw [Nat.ModEq, Nat.mul_comm, hm, Nat.mod_eq_of_lt h1]
    calc dist * m % n * step ≡ dist * m * step [MOD n] := (Nat.mod_modEq _ _).mul_right _
      _ = dist * (m * step) := Nat.mul_assoc _ _ _
      _ ≡ dist * 1 [MOD n] := hone.mul_left _
      _ = dist := Nat.mul_one _
  have hpos : pos + dist ≡ q [MOD n] := by
    have hlt := Nat.mod_lt pos hn
    have heq : pos % n + dist = q + n := by
      change pos % n + (q + (n - pos % n)) = q + n
      omega
    calc pos + dist ≡ pos % n + dist [MOD n] := (Nat.mod_modEq pos n).symm.add_right _
      _ = q + n := heq
      _ ≡ q [MOD n] := Nat.add_modEq_right
  calc (pos + dist * m % n * step) % n = (pos + dist) % n := hstep.add_left pos
    _ = q % n := hpos
    _ = q := Nat.mod_eq_of_lt hq

/-- None of the first `k` odd numbers from 3 on divides `p`. -/
def noOddDivisor (p : ℕ) : ℕ → Bool
  | 0 => true
  | k + 1 => p % (2 * k + 3) ≠ 0 && noOddDivisor p k

def isPrime (p : ℕ) : Bool := 2 ≤ p && p % 2 ≠ 0 && noOddDivisor p (p.sqrt / 2)

theorem not_dvd_of_noOddDivisor {p k : ℕ} (h : noOddDivisor p k = true) {j : ℕ} (hj : j < k) :
    ¬ 2 * j + 3 ∣ p := by
  induction k with
  | zero => omega
  | succ k ih =>
    rw [noOddDivisor, Bool.and_eq_true, decide_eq_true_eq] at h
    obtain rfl | hlt := Nat.eq_or_lt_of_le (Nat.le_of_lt_succ hj)
    · rw [Nat.dvd_iff_mod_eq_zero]
      exact h.1
    · exact ih h.2 hlt

theorem prime_of_isPrime {p : ℕ} (h : isPrime p = true) : p.Prime := by
  unfold isPrime at h
  simp only [Bool.and_eq_true, decide_eq_true_eq] at h
  obtain ⟨⟨h2, hodd⟩, hno⟩ := h
  refine Nat.prime_def_le_sqrt.mpr ⟨h2, fun m hm hle hdvd => ?_⟩
  obtain ⟨j, rfl | rfl⟩ := Nat.even_or_odd' m
  · exact hodd (Nat.mod_eq_zero_of_dvd ((Nat.dvd_mul_right 2 j).trans hdvd))
  · obtain ⟨i, rfl⟩ : ∃ i, j = i + 1 := ⟨j - 1, by omega⟩
    have hform : 2 * (i + 1) + 1 = 2 * i + 3 := by omega
    rw [hform] at hdvd hle
    exact not_dvd_of_noOddDivisor hno (by omega) hdvd

end Probe
