import Magneto.Heap
import Magneto.Lib.Machine
import Mathlib.Logic.Equiv.Basic

/-!
# The heap is a map of signs with a least value

What a user of the heap relies on is the map from the signs in use to their
values. Moving nodes keeps it: `upstairs` and `downstairs` exchange a node with
its parent or a child step by step. The operations then act on the map alone,
and the top is a least value of it.
-/

namespace Magneto

namespace HeapBase

open HeapOrder (Ordered Holed)

variable {Val K : Type*}

def contents (h : HeapBase Val) (sign : ℕ) : Option Val :=
  let index := (h.nodes sign).index
  if 1 ≤ index ∧ index ≤ h.numItems ∧ h.heapItems index = sign then some (h.item sign) else none

structure Placed (h : HeapBase Val) : Prop where
  room : h.numItems < h.sizeContainer
  allocated : ∀ i, i < h.sizeContainer → h.heapItems i < h.sizeContainer
  distinct : ∀ i j, i < h.sizeContainer → j < h.sizeContainer →
    h.heapItems i = h.heapItems j → i = j
  index : ∀ i, 1 ≤ i → i ≤ h.numItems → (h.nodes (h.heapItems i)).index = i

structure Rearranged (h h' : HeapBase Val) : Prop where
  placed : h'.Placed
  numItems : h'.numItems = h.numItems
  contents : h'.contents = h.contents

variable {h h' : HeapBase Val} {sign i j k : ℕ} {v w : Val}

@[simp] theorem item_move (pos node : ℕ) : (h.move pos node).item sign = h.item sign := by
  by_cases hs : sign = node <;> simp [item, move, hs]

@[simp] theorem sizeContainer_move (pos node : ℕ) :
    (h.move pos node).sizeContainer = h.sizeContainer := rfl

theorem heapItems_move (pos node : ℕ) :
    (h.move pos node).heapItems = Function.update h.heapItems pos node := rfl

@[simp] theorem index_move_self (pos node : ℕ) : ((h.move pos node).nodes node).index = pos := by
  simp [move]

theorem index_move_of_ne {pos node : ℕ} (hs : sign ≠ node) :
    ((h.move pos node).nodes sign).index = (h.nodes sign).index := by
  simp [move, hs]

@[simp] theorem item_setVal_self : (h.setVal sign v).item sign = v := by simp [item, setVal]

theorem item_setVal_of_ne {node : ℕ} (hs : sign ≠ node) :
    (h.setVal node v).item sign = h.item sign := by
  simp [item, setVal, hs]

@[simp] theorem index_setVal (node : ℕ) :
    ((h.setVal node v).nodes sign).index = (h.nodes sign).index := by
  by_cases hs : sign = node <;> simp [setVal, hs]

theorem contents_eq_some_iff_index : h.contents sign = some v ↔
    (1 ≤ (h.nodes sign).index ∧ (h.nodes sign).index ≤ h.numItems ∧
      h.heapItems (h.nodes sign).index = sign) ∧ h.item sign = v := by
  simp [contents]

namespace Placed

theorem contents_eq_some (hp : h.Placed) : h.contents sign = some v ↔
    ∃ i, 1 ≤ i ∧ i ≤ h.numItems ∧ h.heapItems i = sign ∧ h.item sign = v := by
  rw [contents_eq_some_iff_index]
  constructor
  · rintro ⟨⟨h1, hn, hi⟩, hv⟩
    exact ⟨_, h1, hn, hi, hv⟩
  · rintro ⟨i, h1, hn, rfl, hv⟩
    rw [hp.index i h1 hn]
    exact ⟨⟨h1, hn, rfl⟩, hv⟩

theorem contents_heapItems (hp : h.Placed) (h1 : 1 ≤ i) (hn : i ≤ h.numItems) :
    h.contents (h.heapItems i) = some (h.item (h.heapItems i)) :=
  hp.contents_eq_some.mpr ⟨i, h1, hn, rfl, rfl⟩

theorem rearranged (hp : h.Placed) (hp' : h'.Placed) (hn : h'.numItems = h.numItems)
    (hitem : ∀ s, h'.item s = h.item s)
    (hsub : ∀ i, 1 ≤ i → i ≤ h.numItems →
      ∃ j, 1 ≤ j ∧ j ≤ h.numItems ∧ h'.heapItems j = h.heapItems i)
    (hsup : ∀ i, 1 ≤ i → i ≤ h.numItems →
      ∃ j, 1 ≤ j ∧ j ≤ h.numItems ∧ h.heapItems j = h'.heapItems i) : Rearranged h h' := by
  refine ⟨hp', hn, funext fun s => Option.ext fun v => ?_⟩
  rw [hp'.contents_eq_some, hp.contents_eq_some, hn, hitem]
  constructor
  · rintro ⟨i, h1, hi, rfl, hv⟩
    obtain ⟨j, hj1, hj, hij⟩ := hsup i h1 hi
    exact ⟨j, hj1, hj, hij, hv⟩
  · rintro ⟨i, h1, hi, rfl, hv⟩
    obtain ⟨j, hj1, hj, hij⟩ := hsub i h1 hi
    exact ⟨j, hj1, hj, hij, hv⟩

end Placed

theorem Rearranged.refl (hp : h.Placed) : Rearranged h h := ⟨hp, rfl, rfl⟩

theorem Rearranged.trans {h'' : HeapBase Val} (a : Rearranged h h') (b : Rearranged h' h'') :
    Rearranged h h'' :=
  ⟨b.placed, b.numItems.trans a.numItems, b.contents.trans a.contents⟩

theorem update_update_swap {α : Type*} (f : ℕ → α) (x : α) (hjk : j ≠ k) :
    Function.update (Function.update f k (f j)) j x =
      Function.update f k x ∘ Equiv.swap k j := by
  funext i
  rw [Function.comp_apply]
  by_cases hij : i = j
  · rw [hij, Function.update_self, Equiv.swap_apply_right, Function.update_self]
  · rw [Function.update_of_ne hij]
    by_cases hik : i = k
    · rw [hik, Function.update_self, Equiv.swap_apply_left, Function.update_of_ne hjk]
    · rw [Function.update_of_ne hik, Equiv.swap_apply_of_ne_of_ne hik hij,
        Function.update_of_ne hik]

/-- One step of the loops: the node at `j` moves to the hole `k`, which moves to `j`. -/
theorem Placed.exchange {node : ℕ} (hp : (h.move k node).Placed) (hk : 1 ≤ k)
    (hkn : k ≤ h.numItems) (hj : 1 ≤ j) (hjn : j ≤ h.numItems) (hjk : j ≠ k) :
    Rearranged (h.move k node) ((h.move k (h.heapItems j)).move j node) := by
  have hroom : h.numItems < h.sizeContainer := hp.room
  have hitems : ((h.move k (h.heapItems j)).move j node).heapItems =
      (h.move k node).heapItems ∘ Equiv.swap k j := update_update_swap _ _ hjk
  have hat : (h.move k node).heapItems j = h.heapItems j := Function.update_of_ne hjk _ _
  have hself : (h.move k node).heapItems k = node := Function.update_self _ _ _
  have hne : h.heapItems j ≠ node := by
    intro he
    refine hjk (hp.distinct j k ?_ ?_ ?_)
    · exact Nat.lt_of_le_of_lt hjn hroom
    · exact Nat.lt_of_le_of_lt hkn hroom
    · rw [hat, hself, he]
  have hswap : ∀ {n : ℕ} {i : ℕ}, k ≤ n → j ≤ n → i ≤ n → Equiv.swap k j i ≤ n := by
    intro n i hk hj hi
    rw [Equiv.swap_apply_def]
    split_ifs
    · exact hj
    · exact hk
    · exact hi
  have hswap1 : ∀ {i : ℕ}, 1 ≤ i → 1 ≤ Equiv.swap k j i := by
    intro i hi
    rw [Equiv.swap_apply_def]
    split_ifs
    · exact hj
    · exact hk
    · exact hi
  have hlt : ∀ {i : ℕ}, i < h.sizeContainer → Equiv.swap k j i < h.sizeContainer := by
    intro i hi
    have hle : Equiv.swap k j i ≤ h.sizeContainer - 1 := hswap (by omega) (by omega) (by omega)
    omega
  have hplaced : ((h.move k (h.heapItems j)).move j node).Placed := by
    refine ⟨hroom, fun i hi => ?_, fun i i' hi hi' he => ?_, fun i h1 hn => ?_⟩
    · rw [hitems]
      exact hp.allocated _ (hlt hi)
    · rw [hitems] at he
      exact (Equiv.swap k j).injective (hp.distinct _ _ (hlt hi) (hlt hi') he)
    · by_cases hij : i = j
      · subst hij
        rw [heapItems_move, Function.update_self, index_move_self]
      · rw [heapItems_move, Function.update_of_ne hij, heapItems_move]
        by_cases hik : i = k
        · subst hik
          rw [Function.update_self, index_move_of_ne hne, index_move_self]
        · have hi : (h.move k node).heapItems i = h.heapItems i := Function.update_of_ne hik _ _
          have hsize : i < h.sizeContainer := Nat.lt_of_le_of_lt hn hroom
          have hnode : h.heapItems i ≠ node := by
            intro he
            refine hik (hp.distinct i k hsize (Nat.lt_of_le_of_lt hkn hroom) ?_)
            rw [hi, hself, he]
          have hnodej : h.heapItems i ≠ h.heapItems j := by
            intro he
            refine hij (hp.distinct i j hsize (Nat.lt_of_le_of_lt hjn hroom) ?_)
            rw [hi, hat, he]
          have hidx := hp.index i h1 hn
          rw [hi, index_move_of_ne hnode] at hidx
          rw [Function.update_of_ne hik, index_move_of_ne hnode, index_move_of_ne hnodej, hidx]
  refine hp.rearranged hplaced rfl (fun s => by simp) (fun i h1 hi => ?_) (fun i h1 hi => ?_)
  · refine ⟨Equiv.swap k j i, hswap1 h1, hswap hkn hjn hi, ?_⟩
    rw [hitems, Function.comp_apply, Equiv.swap_apply_self]
  · refine ⟨Equiv.swap k j i, hswap1 h1, hswap hkn hjn hi, ?_⟩
    rw [hitems, Function.comp_apply]

section Loops

variable [LinearOrder K] (feature : Val → K) {node : ℕ}

theorem rearranged_upstairs (hp : (h.move k node).Placed) (hk : 1 ≤ k) (hkn : k ≤ h.numItems) :
    Rearranged (h.move k node) (h.upstairs feature node k) := by
  induction h, k using upstairs.induct feature node with
  | case1 h k hlt ih =>
    rw [upstairs, if_pos hlt]
    have hex := hp.exchange hk hkn (j := k / 2) (by omega) (by omega) (by omega)
    exact hex.trans (ih hex.placed (by omega) (by rw [numItems_move]; omega))
  | case2 h k hlt =>
    rw [upstairs, if_neg hlt]
    exact .refl hp

theorem rearranged_downstairs (hp : (h.move k node).Placed) (hk : 1 ≤ k)
    (hkn : k ≤ h.numItems) : Rearranged (h.move k node) (h.downstairs feature node k) := by
  induction h, k using downstairs.induct feature node with
  | case1 h k hlt ih =>
    rw [downstairs, if_pos hlt]
    have hmem := h.minChild_mem feature k
    have hle : h.minChild feature k ≤ h.numItems := by
      unfold minChild
      split_ifs with hc
      · exact hlt.2.1
      · rw [not_or] at hc
        omega
    have hex := hp.exchange hk hkn (j := h.minChild feature k) (by omega) hle (by omega)
    exact hex.trans (ih hex.placed (by omega) hle)
  | case2 h k hlt =>
    rw [downstairs, if_neg hlt]
    exact .refl hp

def keys (h : HeapBase Val) (i : ℕ) : K := feature (h.item (h.heapItems i))

omit [LinearOrder K] in
theorem keys_move (h : HeapBase Val) (pos node : ℕ) :
    (h.move pos node).keys feature =
      Function.update (h.keys feature) pos (feature (h.item node)) := by
  funext i
  unfold keys
  rw [item_move, heapItems_move]
  by_cases hi : i = pos
  · rw [hi, Function.update_self, Function.update_self]
  · rw [Function.update_of_ne hi, Function.update_of_ne hi]

theorem ordered_upstairs (ho : Holed (h.keys feature) h.numItems k)
    (below : ∀ c, c ≤ h.numItems → c / 2 = k → feature (h.item node) ≤ h.keys feature c)
    (hkn : k ≤ h.numItems) :
    Ordered ((h.upstairs feature node k).keys feature) h.numItems := by
  induction h, k using upstairs.induct feature node with
  | case1 h k hlt ih =>
    rw [upstairs, if_pos hlt]
    refine ih ?_ ?_ ?_
    · rw [keys_move, numItems_move]
      exact ho.moveUp hlt.1 hkn
    · rw [keys_move, numItems_move, item_move]
      exact ho.moveUp_below hlt.1 (le_of_lt hlt.2)
    · rw [numItems_move]
      omega
  | case2 h k hlt =>
    rw [upstairs, if_neg hlt, keys_move]
    refine ho.place (fun h1 => ?_) below
    rw [not_and] at hlt
    exact not_lt.mp (hlt h1)

theorem minChild_least {c : ℕ} (hc : c ≤ h.numItems) (hck : c / 2 = k) :
    h.keys feature (h.minChild feature k) ≤ h.keys feature c := by
  have hcs : c = 2 * k ∨ c = 2 * k + 1 := by omega
  unfold minChild
  split_ifs with hmin
  · obtain rfl | rfl := hcs
    · exact le_rfl
    · obtain hend | hlt := hmin
      · omega
      · exact le_of_lt hlt
  · rw [not_or] at hmin
    obtain rfl | rfl := hcs
    · exact not_lt.mp hmin.2
    · exact le_rfl

theorem ordered_downstairs (ho : Holed (h.keys feature) h.numItems k)
    (above : 1 < k → h.keys feature (k / 2) ≤ feature (h.item node)) (hk : 1 ≤ k) :
    Ordered ((h.downstairs feature node k).keys feature) h.numItems := by
  induction h, k using downstairs.induct feature node with
  | case1 h k hlt ih =>
    rw [downstairs, if_pos hlt]
    have hmem := h.minChild_mem feature k
    have hle : h.minChild feature k ≤ h.numItems := by
      unfold minChild
      split_ifs with hc
      · exact hlt.2.1
      · rw [not_or] at hc
        omega
    refine ih ?_ ?_ (by omega)
    · rw [keys_move, numItems_move]
      exact ho.moveDown hk (by omega) hle
        (fun c hc hck => minChild_least feature hc hck)
    · intro _
      have hhalf : h.minChild feature k / 2 = k := by omega
      rw [keys_move, item_move, hhalf, Function.update_self]
      exact not_lt.mp hlt.2.2
  | case2 h k hlt =>
    rw [downstairs, if_neg hlt, keys_move]
    refine ho.place above fun c hc hck => ?_
    have h2 : 2 * k ≤ h.numItems := by omega
    have hnode : h.compare feature node (h.heapItems (h.minChild feature k)) := by
      by_contra hnot
      exact hlt ⟨by omega, h2, hnot⟩
    exact (le_of_lt hnode).trans (minChild_least feature hc hck)

end Loops

structure Sound [LinearOrder K] (feature : Val → K) (h : HeapBase Val) : Prop
    extends Placed h where
  ordered : Ordered (h.keys feature) h.numItems

section Operations

variable [LinearOrder K] {feature : Val → K}

omit [LinearOrder K] in
theorem Placed.move_self (hp : h.Placed) (h1 : 1 ≤ i) (hn : i ≤ h.numItems) :
    h.move i (h.heapItems i) = h := by
  have hnode : (⟨i, (h.nodes (h.heapItems i)).val⟩ : HeapItem Val) = h.nodes (h.heapItems i) :=
    congrArg (HeapItem.mk · (h.nodes (h.heapItems i)).val) (hp.index i h1 hn).symm
  unfold move
  rw [Function.update_eq_self, hnode, Function.update_eq_self]

theorem Placed.adjustNode (hp : h.Placed) (hk : 1 ≤ k)
    (ho : Holed (h.keys feature) h.numItems k) :
    Rearranged h (h.adjustNode feature k) ∧ (h.adjustNode feature k).Sound feature := by
  unfold HeapBase.adjustNode
  split_ifs with hn hup
  · refine ⟨.refl hp, hp, fun i h1 hi => ?_⟩
    exact ho.except i h1 hi (by omega) (by omega)
  · have hself := hp.move_self hk (by omega)
    have hr := rearranged_upstairs feature (hself.symm ▸ hp) hk (by omega)
    have hord : Ordered ((h.upstairs feature (h.heapItems k) k).keys feature) h.numItems := by
      refine ordered_upstairs feature ho (fun c hc hck => ?_) (by omega)
      exact (le_of_lt hup.2).trans (ho.across hup.1 c hc hck)
    rw [hself] at hr
    exact ⟨hr, hr.placed, by rwa [hr.numItems]⟩
  · have hself := hp.move_self hk (by omega)
    have hr := rearranged_downstairs feature (hself.symm ▸ hp) hk (by omega)
    have hord : Ordered ((h.downstairs feature (h.heapItems k) k).keys feature) h.numItems := by
      refine ordered_downstairs feature ho (fun h1 => ?_) hk
      rw [not_and] at hup
      exact not_lt.mp (hup h1)
    rw [hself] at hr
    exact ⟨hr, hr.placed, by rwa [hr.numItems]⟩

end Operations

end HeapBase

end Magneto
