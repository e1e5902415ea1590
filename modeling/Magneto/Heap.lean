import Magneto.Lib.HeapOrder

/-!
# The heap of nodes

`HeapBase` keeps pointers to its nodes in `heap_items_[1 .. num_items_]`, and
every node knows its position there. The pointer of a node is the sign of its
value: it stays valid while nodes move, until the value is erased. The nodes
after `num_items_` are kept for later insertions.

A node is numbered by when it was allocated, and `fresh` is what the memory of
a new one holds. `feature` orders the values; a maximum heap is a minimum heap
for the dual order.
-/

namespace Magneto

structure HeapItem (Val : Type*) where
  index : ℕ
  val : Val
  deriving DecidableEq, Repr

structure HeapBase (Val : Type*) where
  nodes : ℕ → HeapItem Val
  heapItems : ℕ → ℕ
  numItems : ℕ
  sizeContainer : ℕ

namespace HeapBase

def DefaultSizeHeap : ℕ := 1024

variable {Val K : Type*}

def init (fresh : ℕ → HeapItem Val) (initSizeHeap : ℕ) : HeapBase Val :=
  ⟨fresh, id, 0, initSizeHeap⟩

def resize (h : HeapBase Val) : HeapBase Val :=
  { h with
    heapItems := fun i =>
      if h.sizeContainer ≤ i ∧ i < 2 * h.sizeContainer then i else h.heapItems i
    sizeContainer := 2 * h.sizeContainer }

def setVal (h : HeapBase Val) (sign : ℕ) (val : Val) : HeapBase Val :=
  { h with nodes := Function.update h.nodes sign { h.nodes sign with val := val } }

def move (h : HeapBase Val) (pos sign : ℕ) : HeapBase Val :=
  { h with
    nodes := Function.update h.nodes sign { h.nodes sign with index := pos }
    heapItems := Function.update h.heapItems pos sign }

def item (h : HeapBase Val) (sign : ℕ) : Val := (h.nodes sign).val

variable [LinearOrder K] (feature : Val → K)

def compare (h : HeapBase Val) (node1 node2 : ℕ) : Prop :=
  feature (h.item node1) < feature (h.item node2)

instance (h : HeapBase Val) (node1 node2 : ℕ) : Decidable (h.compare feature node1 node2) :=
  inferInstanceAs (Decidable (_ < _))

/-- The loop of `Insert` and the upward one of `AdjustNode_`. -/
def upstairs (h : HeapBase Val) (node index : ℕ) : HeapBase Val :=
  if 1 < index ∧ h.compare feature node (h.heapItems (index / 2)) then
    (h.move index (h.heapItems (index / 2))).upstairs node (index / 2)
  else h.move index node
termination_by index

def minChild (h : HeapBase Val) (pos : ℕ) : ℕ :=
  if 2 * pos = h.numItems ∨
      h.compare feature (h.heapItems (2 * pos)) (h.heapItems (2 * pos + 1)) then 2 * pos
  else 2 * pos + 1

omit [LinearOrder K] in
@[simp] theorem numItems_move (h : HeapBase Val) (pos sign : ℕ) :
    (h.move pos sign).numItems = h.numItems := rfl

theorem minChild_mem (h : HeapBase Val) (pos : ℕ) :
    h.minChild feature pos = 2 * pos ∨ h.minChild feature pos = 2 * pos + 1 := by
  unfold minChild
  split_ifs
  · exact .inl rfl
  · exact .inr rfl

/-- The downward loop of `AdjustNode_`. No node is at position 0. -/
def downstairs (h : HeapBase Val) (node pos : ℕ) : HeapBase Val :=
  if 0 < pos ∧ 2 * pos ≤ h.numItems ∧
      ¬ h.compare feature node (h.heapItems (h.minChild feature pos)) then
    (h.move pos (h.heapItems (h.minChild feature pos))).downstairs node
      (h.minChild feature pos)
  else h.move pos node
termination_by h.numItems - pos
decreasing_by
  have hmem := h.minChild_mem feature pos
  rw [numItems_move]
  omega

def adjustNode (h : HeapBase Val) (index : ℕ) : HeapBase Val :=
  if h.numItems < index then h
  else if 1 < index ∧ h.compare feature (h.heapItems index) (h.heapItems (index / 2)) then
    h.upstairs feature (h.heapItems index) index
  else h.downstairs feature (h.heapItems index) index

/-- `Insert`; the second component is the sign it writes out. -/
def insert (h : HeapBase Val) (val : Val) : HeapBase Val × ℕ :=
  let h := if h.numItems + 1 = h.sizeContainer then h.resize else h
  let newItem := h.heapItems (h.numItems + 1)
  let h := { h with numItems := h.numItems + 1 }
  ((h.setVal newItem val).upstairs feature newItem h.numItems, newItem)

def update (h : HeapBase Val) (sign : ℕ) (val : Val) : HeapBase Val :=
  (h.setVal sign val).adjustNode feature (h.nodes sign).index

def updateTop (h : HeapBase Val) (val : Val) : HeapBase Val :=
  if h.numItems = 0 then h
  else (h.setVal (h.heapItems 1) val).adjustNode feature 1

def top (h : HeapBase Val) : Option Val :=
  if h.numItems = 0 then none else some (h.item (h.heapItems 1))

/-- `Erase` before `AdjustNode_`: the last node takes the place of the erased one. -/
def cut (h : HeapBase Val) (sign : ℕ) : HeapBase Val :=
  let index := (h.nodes sign).index
  let heapItems := Function.update (Function.update h.heapItems index (h.heapItems h.numItems))
    h.numItems sign
  { h with
    nodes := Function.update h.nodes (heapItems index)
      { h.nodes (heapItems index) with index := index }
    heapItems := heapItems
    numItems := h.numItems - 1 }

def erase (h : HeapBase Val) (sign : ℕ) : HeapBase Val :=
  if h.numItems = 0 then h
  else (h.cut sign).adjustNode feature (h.nodes sign).index

def pop (h : HeapBase Val) : HeapBase Val := h.erase feature (h.heapItems 1)

def clear (h : HeapBase Val) : HeapBase Val := { h with numItems := 0 }

end HeapBase

end Magneto
