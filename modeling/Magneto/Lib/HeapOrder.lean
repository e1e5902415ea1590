import Mathlib.Data.Nat.Init
import Mathlib.Logic.Function.Basic
import Mathlib.Order.Lattice

/-!
# The order of a binary heap with a hole

Positions start at 1 and the parent of `i` is `i / 2`. While a key travels
through a heap its position is a hole: the order is known everywhere else, and
every child of the hole is at least the hole's parent. A key that is at most
the children of the hole may be placed there or travel up, one that is at least
its parent may be placed there or travel down.
-/

namespace HeapOrder

variable {K : Type*} [LinearOrder K] {a b : ℕ → K} {n k m i j : ℕ} {x : K}

def Ordered (a : ℕ → K) (n : ℕ) : Prop := ∀ i, 1 < i → i ≤ n → a (i / 2) ≤ a i

structure Holed (a : ℕ → K) (n k : ℕ) : Prop where
  except : ∀ i, 1 < i → i ≤ n → i ≠ k → i / 2 ≠ k → a (i / 2) ≤ a i
  across : 1 < k → ∀ c, c ≤ n → c / 2 = k → a (k / 2) ≤ a c

theorem Ordered.mono (h : Ordered a n) (hm : m ≤ n) : Ordered a m :=
  fun i h1 hi => h i h1 (by omega)

theorem Ordered.root_le (h : Ordered a n) (h1 : 1 ≤ i) (hi : i ≤ n) : a 1 ≤ a i := by
  induction i using Nat.strong_induction_on with
  | _ i ih =>
    obtain rfl | hlt := Nat.eq_or_lt_of_le h1
    · exact le_rfl
    · exact (ih (i / 2) (by omega) (by omega) (by omega)).trans (h i hlt hi)

theorem Ordered.holed (h : Ordered a n) (hab : ∀ i, i ≠ k → i ≤ n → b i = a i) :
    Holed b n k := by
  constructor
  · intro i h1 hi hik hpk
    rw [hab i hik hi, hab (i / 2) hpk (by omega)]
    exact h i h1 hi
  · intro h1 c hc hck
    rw [hab c (by omega) hc, hab (k / 2) (by omega) (by omega)]
    have hup : a (k / 2) ≤ a k := h k h1 (by omega)
    have hdown : a (c / 2) ≤ a c := h c (by omega) hc
    rw [hck] at hdown
    exact hup.trans hdown

theorem Ordered.holed_succ (h : Ordered a n) (hab : ∀ i, i ≤ n → b i = a i) :
    Holed b (n + 1) (n + 1) := by
  constructor
  · intro i h1 hi hik _
    rw [hab i (by omega), hab (i / 2) (by omega)]
    exact h i h1 (by omega)
  · intro _ c hc hck
    omega

namespace Holed

theorem place (h : Holed a n k) (above : 1 < k → a (k / 2) ≤ x)
    (below : ∀ c, c ≤ n → c / 2 = k → x ≤ a c) : Ordered (Function.update a k x) n := by
  intro i h1 hi
  by_cases hik : i = k
  · subst hik
    rw [Function.update_self, Function.update_of_ne (by omega)]
    exact above h1
  · rw [Function.update_of_ne hik]
    by_cases hpk : i / 2 = k
    · rw [hpk, Function.update_self]
      exact below i hi hpk
    · rw [Function.update_of_ne hpk]
      exact h.except i h1 hi hik hpk

theorem moveUp (h : Holed a n k) (h1 : 1 < k) (hk : k ≤ n) :
    Holed (Function.update a k (a (k / 2))) n (k / 2) := by
  have hne : k / 2 ≠ k := by omega
  constructor
  · intro i hi1 hi hik hpk
    have hik' : i ≠ k := fun he => hpk (by rw [he])
    rw [Function.update_of_ne hik']
    by_cases hp : i / 2 = k
    · rw [hp, Function.update_self]
      exact h.across h1 i hi hp
    · rw [Function.update_of_ne hp]
      exact h.except i hi1 hi hik' hp
  · intro hp1 c hc hck
    rw [Function.update_of_ne (show k / 2 / 2 ≠ k by omega)]
    have hup : a (k / 2 / 2) ≤ a (k / 2) :=
      h.except (k / 2) hp1 (by omega) hne (by omega)
    by_cases hc' : c = k
    · rw [hc', Function.update_self]
      exact hup
    · rw [Function.update_of_ne hc']
      have hdown : a (c / 2) ≤ a c := h.except c (by omega) hc hc' (by omega)
      rw [hck] at hdown
      exact hup.trans hdown

theorem moveUp_below (h : Holed a n k) (h1 : 1 < k) (hx : x ≤ a (k / 2)) :
    ∀ c, c ≤ n → c / 2 = k / 2 → x ≤ Function.update a k (a (k / 2)) c := by
  intro c hc hck
  by_cases hc' : c = k
  · rw [hc', Function.update_self]
    exact hx
  · rw [Function.update_of_ne hc']
    have hdown : a (c / 2) ≤ a c := h.except c (by omega) hc hc' (by omega)
    rw [hck] at hdown
    exact hx.trans hdown

theorem moveDown (h : Holed a n k) (hk : 1 ≤ k) (hm : m / 2 = k) (hmn : m ≤ n)
    (least : ∀ c, c ≤ n → c / 2 = k → a m ≤ a c) : Holed (Function.update a k (a m)) n m := by
  constructor
  · intro i hi1 hi him hpm
    by_cases hik : i = k
    · subst hik
      rw [Function.update_self, Function.update_of_ne (by omega)]
      exact h.across hi1 m hmn hm
    · rw [Function.update_of_ne hik]
      by_cases hp : i / 2 = k
      · rw [hp, Function.update_self]
        exact least i hi hp
      · rw [Function.update_of_ne hp]
        exact h.except i hi1 hi hik hp
  · intro _ c hc hcm
    rw [hm, Function.update_self, Function.update_of_ne (by omega)]
    have hdown : a (c / 2) ≤ a c := h.except c (by omega) hc (by omega) (by omega)
    rwa [hcm] at hdown

end Holed

end HeapOrder
