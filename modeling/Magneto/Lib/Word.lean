import Mathlib.Data.Int.Order.Basic
import Mathlib.Data.List.Basic
import Mathlib.Tactic.NormNum

/-!
# Machine words as naturals and bytes

Narrowing to a signed 32-bit word and the two byte orders of an unsigned word
stored in a byte list.
-/

namespace Word

def intMax : ℕ := 2 ^ 31 - 1

/-- A 64-bit integer stored in a signed 32-bit word. -/
def narrow (n : ℤ) : ℤ := n.bmod (2 ^ 32)

theorem narrow_of_mem {n : ℤ} (h0 : 0 ≤ n) (h1 : n < 2 ^ 31) : narrow n = n := by
  unfold narrow
  rw [Int.bmod_def]
  norm_num at h1 ⊢
  omega

theorem narrow_natCast_eq_iff {n : ℕ} : narrow (n : ℤ) = n ↔ n < 2 ^ 31 := by
  constructor
  · unfold narrow
    rw [Int.bmod_def]
    norm_num
    omega
  · intro h
    exact narrow_of_mem (Int.natCast_nonneg n) (by exact_mod_cast h)

theorem narrow_natCast_eq_zero {n : ℕ} (h : n < 2 ^ 32) : narrow (n : ℤ) = 0 ↔ n = 0 := by
  unfold narrow
  rw [Int.bmod_def]
  norm_num at h ⊢
  omega

def leNat (bs : List UInt8) : ℕ := bs.foldr (fun b n => b.toNat + 256 * n) 0

def beNat (bs : List UInt8) : ℕ := leNat bs.reverse

/-- The `k` low bytes of a value, least significant first. -/
def leBytes : ℕ → ℕ → List UInt8
  | 0, _ => []
  | k + 1, n => UInt8.ofNat n :: leBytes k (n / 256)

def beBytes (k n : ℕ) : List UInt8 := (leBytes k n).reverse

@[simp] theorem leNat_reverse (bs : List UInt8) : leNat bs.reverse = beNat bs := rfl

@[simp] theorem leBytes_length (k n : ℕ) : (leBytes k n).length = k := by
  induction k generalizing n with
  | zero => rfl
  | succ k ih => simp [leBytes, ih]

@[simp] theorem beBytes_length (k n : ℕ) : (beBytes k n).length = k := by simp [beBytes]

theorem leNat_leBytes {k n : ℕ} (h : n < 256 ^ k) : leNat (leBytes k n) = n := by
  induction k generalizing n with
  | zero => simp_all [leBytes, leNat]
  | succ k ih =>
    have hdiv : n / 256 < 256 ^ k := Nat.div_lt_of_lt_mul (by rwa [pow_succ'] at h)
    have ih' := ih hdiv
    simp only [leNat] at ih'
    simp only [leNat, leBytes, List.foldr_cons, ih', UInt8.toNat_ofNat']
    omega

theorem beNat_beBytes {k n : ℕ} (h : n < 256 ^ k) : beNat (beBytes k n) = n := by
  rw [beNat, beBytes, List.reverse_reverse, leNat_leBytes h]

theorem leNat_lt (bs : List UInt8) : leNat bs < 256 ^ bs.length := by
  induction bs with
  | nil => simp [leNat]
  | cons b bs ih =>
    have hb := b.toNat_lt
    simp only [leNat, List.foldr_cons, List.length_cons, pow_succ] at ih ⊢
    omega

theorem beNat_lt (bs : List UInt8) : beNat bs < 256 ^ bs.length := by
  simpa using leNat_lt bs.reverse

end Word
