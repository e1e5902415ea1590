import Magneto.Lib.Machine
import Mathlib.Logic.Function.Basic
import Mathlib.Data.List.Range

/-!
# The pool of objects

`PoolObjsBase` with the arguments every pool of the program is made with: no
objects at first, blocks are added, and `new` is used when no block can be added.
An object is the number of the `new` that made it. An access outside a row that
was allocated, or to a cell that was not stored to, has no result.
-/

namespace Magneto

structure PoolObjs where
  numObjsPerBlock : ℕ
  maxNumBlocks : ℕ
  poolObjs : ℕ → ℕ → Option ℕ
  currentRow : ℕ
  currentCol : ℕ
  numObjsAlloc : ℕ
  numBlocksAlloc : ℕ
  init : Bool
  nextId : ℕ

namespace PoolObjs

def new (sizeofObj memPerBlock maxNumBlocks : ℕ) : PoolObjs :=
  ⟨(memPerBlock + sizeofObj - 1) / sizeofObj, maxNumBlocks, fun _ _ => none, 0, 0, 0, 0, false, 0⟩

def load (p : PoolObjs) (row col : ℕ) : Option ℕ :=
  if row < p.numBlocksAlloc ∧ col < p.numObjsPerBlock then p.poolObjs row col else none

def store (p : PoolObjs) (row col obj : ℕ) : Option PoolObjs :=
  if row < p.numBlocksAlloc ∧ col < p.numObjsPerBlock then
    some { p with
      poolObjs := Function.update p.poolObjs row
        (Function.update (p.poolObjs row) col (some obj)) }
  else none

def fillRow (p : PoolObjs) : ℕ → Option PoolObjs
  | 0 => some p
  | i + 1 => (p.fillRow i).bind fun p =>
    store { p with numObjsAlloc := p.numObjsAlloc + 1, nextId := p.nextId + 1 } p.currentRow i
      p.nextId

/-- It fills the current row, and adds a row at the end. -/
def allocABlock (p : PoolObjs) : Option (Bool × PoolObjs) :=
  if p.maxNumBlocks = p.numBlocksAlloc then some (false, p)
  else (fillRow { p with numBlocksAlloc := p.numBlocksAlloc + 1 } p.numObjsPerBlock).map fun p =>
    (true, { p with currentRow := p.currentRow + 1 })

def getNew (p : PoolObjs) : Option (Option ℕ × PoolObjs) :=
  p.allocABlock.bind fun r =>
    if r.1 then
      let p := { r.2 with currentRow := 0, currentCol := r.2.numObjsPerBlock - 1 }
      (p.load p.currentRow p.currentCol).map fun obj => (some obj, p)
    else some (some r.2.nextId, { r.2 with nextId := r.2.nextId + 1 })

def get (p : PoolObjs) : Option (Option ℕ × PoolObjs) :=
  if p.init = false ∧ p.maxNumBlocks = 0 then some (none, p)
  else
    let p := { p with init := true }
    if p.currentCol ≠ 0 then
      (p.load p.currentRow (p.currentCol - 1)).map fun obj =>
        (some obj, { p with currentCol := p.currentCol - 1 })
    else if p.currentRow ≠ 0 then
      (p.load (p.currentRow - 1) (p.numObjsPerBlock - 1)).map fun obj =>
        (some obj, { p with currentRow := p.currentRow - 1, currentCol := p.numObjsPerBlock - 1 })
    else p.getNew

def push (p : PoolObjs) (obj : ℕ) : Option PoolObjs :=
  if p.numObjsPerBlock - 1 ≠ p.currentCol then
    (p.store p.currentRow p.currentCol obj).map fun p => { p with currentCol := p.currentCol + 1 }
  else (p.store p.currentRow p.currentCol obj).map fun p =>
    { p with currentRow := p.currentRow + 1, currentCol := 0 }

def free (p : PoolObjs) (obj : ℕ) : Option PoolObjs :=
  if p.init = false ∧ p.maxNumBlocks = 0 then some p
  else
    let p := { p with init := true }
    if p.numBlocksAlloc = p.currentRow then
      if p.maxNumBlocks = p.numBlocksAlloc then some p
      else push { p with numBlocksAlloc := p.numBlocksAlloc + 1 } obj
    else p.push obj

/-- The objects that the destructor deletes. -/
def destroy (p : PoolObjs) : List (Option ℕ) :=
  if p.init then
    (List.range p.currentRow).flatMap (fun i =>
      (List.range p.numObjsPerBlock).map fun j => p.load i j) ++
    if p.currentRow ≠ p.numBlocksAlloc then
      (List.range p.currentCol).map fun i => p.load p.currentRow i
    else []
  else []

end PoolObjs

end Magneto
