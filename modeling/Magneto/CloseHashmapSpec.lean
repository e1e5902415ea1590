import Magneto.CloseHashmap
import Mathlib.Data.List.GetD

/-!
# The hash map is a finite map with room for so many insertions

The key of a slot never changes once it is set, so a probe that found an entry
finds it again after any other operation. A size that `Init` accepts is prime
to every step, so a probe that finds nothing has seen every slot.
-/

namespace Magneto

namespace CloseHashmap

variable {Key Val : Type*} {m : CloseHashmap Key Val}

theorem kPrimes_isPrime : ∀ p ∈ kPrimes, Probe.isPrime p = true := by decide +kernel

theorem coprime_of_init {n : ℕ} {hash : Key → ℕ} (h : init n hash = some m) {p : ℕ}
    (hp : p ∈ kPrimes) : Nat.Coprime p m.sizeArray := by
  unfold init at h
  split_ifs at h with hany
  cases h
  rw [(Probe.prime_of_isPrime (kPrimes_isPrime p hp)).coprime_iff_not_dvd]
  intro hdvd
  refine hany (List.any_eq_true.mpr ⟨p, hp, ?_⟩)
  exact decide_eq_true (Nat.mod_eq_zero_of_dvd hdvd)

variable {key k : Key} {val v : Val} {pos p q n : ℕ} {item : HashItem Key Val}

theorem step_mem (m : CloseHashmap Key Val) (key : Key) : m.step key ∈ kPrimes := by
  have hlt : m.home key % kNumPrimes < kPrimes.length := Nat.mod_lt _ (by decide)
  unfold step
  rw [List.getD_eq_getElem _ _ hlt]
  exact List.getElem_mem hlt

theorem items_setItem_self {num : ℕ} : (m.setItem p item num).items p = item :=
  Function.update_self _ _ _

theorem items_setItem_of_ne {num : ℕ} (h : q ≠ p) :
    (m.setItem p item num).items q = m.items q :=
  Function.update_of_ne h _ _

variable [DecidableEq Key]

theorem atHome_of_atStep (h : item.atStep key = true) : item.atHome key = true := by
  cases item with
  | empty => rfl
  | used k v => exact h
  | erased k v => cases h

theorem atStep_used (key : Key) (val : Val) : (HashItem.used key val).atStep key = true :=
  decide_eq_true rfl

theorem probe_eq_some (hsize : 0 < m.sizeArray) {s : ℕ} (h : m.probe key s n pos = some q) :
    q < m.sizeArray ∧ (m.items q).atStep key = true := by
  induction n generalizing pos with
  | zero => cases h
  | succ n ih =>
    rw [probe] at h
    split_ifs at h with hstop
    · cases h
      exact ⟨Nat.mod_lt _ hsize, hstop⟩
    · exact ih h

theorem probe_eq_none {s : ℕ} (h : m.probe key s n pos = none) {i : ℕ} (h1 : 1 ≤ i)
    (hi : i ≤ n) : (m.items ((pos + i * s) % m.sizeArray)).atStep key = false := by
  induction n generalizing pos i with
  | zero => omega
  | succ n ih =>
    rw [probe] at h
    split_ifs at h with hstop
    obtain rfl | h2 := Nat.eq_or_lt_of_le h1
    · rw [Nat.one_mul]
      exact Bool.eq_false_iff.mpr hstop
    · obtain ⟨j, rfl⟩ : ∃ j, i = j + 1 := ⟨i - 1, by omega⟩
      have hj := ih h (i := j) (by omega) (by omega)
      rw [Nat.mod_add_mod] at hj
      rwa [Nat.add_mul, Nat.one_mul, Nat.add_comm (j * s), ← Nat.add_assoc]

theorem probe_setItem_succ {s num : ℕ} : (m.setItem p item num).probe key s (n + 1) pos =
    if ((m.setItem p item num).items ((pos + s) % m.sizeArray)).atStep key
    then some ((pos + s) % m.sizeArray)
    else (m.setItem p item num).probe key s n ((pos + s) % m.sizeArray) := rfl

theorem probe_setItem_of_ne {s num : ℕ} (h : m.probe key s n pos = some q) (hq : q ≠ p)
    (hstop : item.atStep key = false) :
    (m.setItem p item num).probe key s n pos = some q := by
  induction n generalizing pos with
  | zero => cases h
  | succ n ih =>
    rw [probe] at h
    rw [probe_setItem_succ]
    by_cases hp : (pos + s) % m.sizeArray = p
    · rw [hp, items_setItem_self, hstop, if_neg Bool.false_ne_true]
      rw [hp] at h
      split_ifs at h with hold
      · cases h
        exact absurd rfl hq
      · exact ih h
    · rw [items_setItem_of_ne hp]
      split_ifs at h ⊢
      · exact h
      · exact ih h

theorem probe_setItem_self {s num : ℕ} (h : m.probe key s n pos = some p)
    (hstop : item.atStep key = true) : (m.setItem p item num).probe key s n pos = some p := by
  induction n generalizing pos with
  | zero => cases h
  | succ n ih =>
    rw [probe] at h
    rw [probe_setItem_succ]
    by_cases hp : (pos + s) % m.sizeArray = p
    · rw [hp, items_setItem_self, hstop, if_pos rfl]
    · rw [items_setItem_of_ne hp]
      split_ifs at h ⊢
      · exact h
      · exact ih h

theorem getItem_eq_some (hsize : 0 < m.sizeArray) (h : m.getItem key = some q) :
    q < m.sizeArray ∧ (m.items q).atHome key = true := by
  unfold getItem at h
  split_ifs at h with hhome
  · cases h
    exact ⟨Nat.mod_lt _ hsize, hhome⟩
  · obtain ⟨hlt, hstop⟩ := probe_eq_some hsize h
    exact ⟨hlt, atHome_of_atStep hstop⟩

theorem getItem_setItem_of_ne {num : ℕ} (h : m.getItem key = some q) (hq : q ≠ p)
    (hstop : item.atHome key = false) : (m.setItem p item num).getItem key = some q := by
  have hstep : item.atStep key = false := by
    rw [Bool.eq_false_iff] at hstop ⊢
    exact fun h => hstop (atHome_of_atStep h)
  unfold getItem at h ⊢
  have hhome : (m.setItem p item num).home key = m.home key := rfl
  rw [hhome]
  by_cases hp : m.home key = p
  · rw [show (m.setItem p item num).items (m.home key) = item from hp ▸ items_setItem_self, hstop,
      if_neg Bool.false_ne_true]
    split_ifs at h
    · cases h
      exact absurd hp hq
    · exact probe_setItem_of_ne h hq hstep
  · rw [items_setItem_of_ne hp]
    split_ifs at h ⊢
    · exact h
    · exact probe_setItem_of_ne h hq hstep

theorem getItem_setItem_self {num : ℕ} (h : m.getItem key = some p)
    (hstop : item.atStep key = true) : (m.setItem p item num).getItem key = some p := by
  unfold getItem at h ⊢
  have hhome : (m.setItem p item num).home key = m.home key := rfl
  rw [hhome]
  by_cases hp : m.home key = p
  · rw [hp, items_setItem_self, atHome_of_atStep hstop, if_pos rfl]
  · rw [items_setItem_of_ne hp]
    split_ifs at h ⊢
    · exact h
    · exact probe_setItem_self h hstop

def usedSlots (m : CloseHashmap Key Val) : Finset ℕ :=
  (Finset.range m.sizeArray).filter fun pos => (m.items pos).val?.isSome

structure Sound (m : CloseHashmap Key Val) : Prop where
  size : 0 < m.sizeArray
  coprime : ∀ p ∈ kPrimes, Nat.Coprime p m.sizeArray
  hit : ∀ pos < m.sizeArray, ∀ k v, m.items pos = .used k v → m.getItem k = some pos
  num : m.numElm = m.usedSlots.card

def Room (m : CloseHashmap Key Val) (key : Key) : Prop :=
  (m.items (m.home key)).key = some key ∨ ∃ pos < m.sizeArray, m.items pos = .empty

namespace Sound

/-- A probe that finds nothing has seen every slot, and no slot is empty. -/
theorem ne_empty_of_getItem (h : m.Sound) (hnone : m.getItem key = none) :
    ¬ m.Room key := by
  unfold getItem at hnone
  split_ifs at hnone with hhome
  rintro (hkey | ⟨q, hq, hempty⟩)
  · refine hhome ?_
    cases hi : m.items (m.home key) with
    | empty => rfl
    | used k v =>
      rw [hi] at hkey
      exact decide_eq_true (Option.some.inj hkey).symm
    | erased k v =>
      rw [hi] at hkey
      exact decide_eq_true (Option.some.inj hkey).symm
  · obtain ⟨i, hi, hpos⟩ := Probe.exists_step h.size (h.coprime _ (m.step_mem key)) (m.home key) hq
    obtain rfl | h1 := Nat.eq_zero_or_pos i
    · have hlt : m.home key < m.sizeArray := Nat.mod_lt _ h.size
      rw [Nat.zero_mul, Nat.add_zero, Nat.mod_eq_of_lt hlt] at hpos
      rw [hpos, hempty] at hhome
      exact hhome rfl
    · have hstop := probe_eq_none hnone h1 (by omega)
      rw [hpos, hempty] at hstop
      cases hstop

theorem get_eq_some (h : m.Sound) :
    m.get key = some v ↔ ∃ pos < m.sizeArray, m.items pos = .used key v := by
  unfold get
  constructor
  · intro hget
    obtain ⟨pos, hpos, hval⟩ := Option.bind_eq_some_iff.mp hget
    obtain ⟨hlt, hhome⟩ := getItem_eq_some h.size hpos
    refine ⟨pos, hlt, ?_⟩
    cases hi : m.items pos with
    | empty =>
      rw [hi] at hval
      cases hval
    | used k v' =>
      rw [hi] at hval hhome
      cases hval
      rw [of_decide_eq_true hhome]
    | erased k v' =>
      rw [hi] at hval
      cases hval
  · rintro ⟨pos, hlt, hi⟩
    rw [h.hit pos hlt key v hi, Option.bind_some, hi]
    rfl

theorem setUsed (h : m.Sound) (hpos : m.getItem key = some pos) {num : ℕ}
    (hnum : num = (m.setItem pos (.used key val) num).usedSlots.card) :
    (m.setItem pos (.used key val) num).Sound ∧
      (m.setItem pos (.used key val) num).get = Function.update m.get key (some val) := by
  obtain ⟨hlt, hhome⟩ := getItem_eq_some h.size hpos
  have hself : (m.setItem pos (.used key val) num).items pos = .used key val :=
    Function.update_self _ _ _
  have hother : ∀ q, q ≠ pos → (m.setItem pos (.used key val) num).items q = m.items q :=
    fun q hq => Function.update_of_ne hq _ _
  -- the slot held nothing, or an item of the same key
  have hold : ∀ k v, m.items pos = .used k v → k = key := by
    intro k v hi
    rw [hi] at hhome
    exact (of_decide_eq_true hhome).symm
  have hsound : (m.setItem pos (.used key val) num).Sound := by
    refine ⟨h.size, h.coprime, fun q hq k v hi => ?_, hnum⟩
    by_cases hqp : q = pos
    · subst hqp
      rw [hself] at hi
      cases hi
      exact getItem_setItem_self hpos (atStep_used _ _)
    · rw [hother q hqp] at hi
      have hhit := h.hit q hq k v hi
      refine getItem_setItem_of_ne hhit hqp ?_
      refine decide_eq_false ?_
      rintro rfl
      rw [hpos] at hhit
      exact hqp (Option.some.inj hhit).symm
  refine ⟨hsound, funext fun k => Option.ext fun v => ?_⟩
  rw [hsound.get_eq_some]
  by_cases hk : k = key
  · subst hk
    rw [Function.update_self]
    constructor
    · rintro ⟨q, hq, hi⟩
      have hhit := hsound.hit q hq k v hi
      rw [getItem_setItem_self hpos (atStep_used _ _)] at hhit
      cases hhit
      rw [hself] at hi
      cases hi
      rfl
    · rintro ⟨⟩
      exact ⟨pos, hlt, hself⟩
  · rw [Function.update_of_ne hk, h.get_eq_some]
    constructor
    · rintro ⟨q, hq, hi⟩
      have hqp : q ≠ pos := by
        rintro rfl
        rw [hself] at hi
        cases hi
        exact hk rfl
      exact ⟨q, hq, hother q hqp ▸ hi⟩
    · rintro ⟨q, hq, hi⟩
      have hqp : q ≠ pos := by
        rintro rfl
        exact hk (hold k v hi)
      exact ⟨q, hq, (hother q hqp).trans hi⟩

end Sound

end CloseHashmap

end Magneto
