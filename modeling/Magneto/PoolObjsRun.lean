import Magneto.PoolObjs
import Mathlib.Data.List.Nodup

/-!
# Runs of the pool of objects

The pool is a stack over its rows. Blocks are filled when the stack is empty, so
that the objects never handed out lie below those that came back.
-/

namespace Magneto

namespace PoolObjs

variable {p q : PoolObjs} {st : List ℕ} {obj row col : ℕ}

structure Sound (p : PoolObjs) (st : List ℕ) : Prop where
  block : 0 < p.numObjsPerBlock
  blocks : p.maxNumBlocks ≠ 0
  most : p.numBlocksAlloc ≤ p.maxNumBlocks
  col : p.currentCol < p.numObjsPerBlock
  room : p.currentRow * p.numObjsPerBlock + p.currentCol ≤ p.numBlocksAlloc * p.numObjsPerBlock
  height : st.length = p.currentRow * p.numObjsPerBlock + p.currentCol
  cells : ∀ r c, c < p.numObjsPerBlock → r * p.numObjsPerBlock + c < st.length →
    p.poolObjs r c = st[r * p.numObjsPerBlock + c]?

theorem sound_new {sizeofObj memPerBlock maxNumBlocks : ℕ} (hsize : 0 < sizeofObj)
    (hmem : 0 < memPerBlock) (hmax : maxNumBlocks ≠ 0) :
    (new sizeofObj memPerBlock maxNumBlocks).Sound [] := by
  have hblock : 0 < (memPerBlock + sizeofObj - 1) / sizeofObj :=
    Nat.div_pos (by omega) hsize
  exact ⟨hblock, hmax, Nat.zero_le _, hblock, Nat.le_of_eq (by simp [new]), by simp [new],
    fun _ _ _ hlt => absurd hlt (Nat.not_lt_zero _)⟩

structure Grown (p p' : PoolObjs) (n : ℕ) : Prop where
  perBlock : p'.numObjsPerBlock = p.numObjsPerBlock
  most : p'.maxNumBlocks = p.maxNumBlocks
  blocks : p'.numBlocksAlloc = p.numBlocksAlloc + n
  init : p'.init = true

theorem lt_of_cell {r c n b : ℕ} (h : r * b + c < n * b) : r < n := by
  by_contra hge
  have := Nat.mul_le_mul_right b (Nat.not_lt.mp hge)
  omega

theorem cell_inj {r c r' c' b : ℕ} (hc : c < b) (hc' : c' < b)
    (h : r * b + c = r' * b + c') : r = r' ∧ c = c' := by
  obtain hlt | rfl | hgt := Nat.lt_trichotomy r r'
  · have := Nat.mul_le_mul_right b (Nat.succ_le_of_lt hlt)
    rw [Nat.succ_mul] at this
    omega
  · exact ⟨rfl, by omega⟩
  · have := Nat.mul_le_mul_right b (Nat.succ_le_of_lt hgt)
    rw [Nat.succ_mul] at this
    omega

namespace Sound

theorem load (h : p.Sound st) (hc : col < p.numObjsPerBlock)
    (hlt : row * p.numObjsPerBlock + col < st.length) :
    p.load row col = st[row * p.numObjsPerBlock + col]? := by
  have hroom := h.room
  have hheight := h.height
  have hrow : row < p.numBlocksAlloc :=
    lt_of_cell (c := col) (b := p.numObjsPerBlock) (by omega)
  rw [PoolObjs.load, if_pos ⟨hrow, hc⟩, h.cells row col hc hlt]

theorem pop (h : p.Sound (st ++ [obj])) (row col : ℕ) (hc : col < p.numObjsPerBlock)
    (hidx : row * p.numObjsPerBlock + col = st.length) :
    p.load row col = some obj ∧
      Sound { p with currentRow := row, currentCol := col } st := by
  have hlen : (st ++ [obj]).length = st.length + 1 := by simp
  refine ⟨?_, h.block, h.blocks, h.most, hc, ?_, hidx.symm, fun r c hc' hlt => ?_⟩
  · rw [h.load hc (by omega), hidx, List.getElem?_append_right (Nat.le_refl _), Nat.sub_self]
    rfl
  · have hroom := h.room
    have hheight := h.height
    change row * p.numObjsPerBlock + col ≤ p.numBlocksAlloc * p.numObjsPerBlock
    omega
  · have hlt' : r * p.numObjsPerBlock + c < st.length := hlt
    refine (h.cells r c hc' (by omega)).trans ?_
    exact List.getElem?_append_left hlt'

theorem store (h : p.Sound st) (hroom : st.length < p.numBlocksAlloc * p.numObjsPerBlock)
    (obj row' col' : ℕ) (hc : col' < p.numObjsPerBlock)
    (hidx : row' * p.numObjsPerBlock + col' = st.length + 1) :
    ∃ cells, p.store p.currentRow p.currentCol obj = some { p with poolObjs := cells } ∧
      Sound { p with poolObjs := cells, currentRow := row', currentCol := col' }
        (st ++ [obj]) := by
  have hheight := h.height
  have hrow : p.currentRow < p.numBlocksAlloc := lt_of_cell (hheight ▸ hroom)
  refine ⟨_, if_pos ⟨hrow, h.col⟩, h.block, h.blocks, h.most, hc, ?_, ?_, fun r c hc' hlt => ?_⟩
  · change row' * p.numObjsPerBlock + col' ≤ p.numBlocksAlloc * p.numObjsPerBlock
    omega
  · rw [List.length_append]
    exact hidx.symm
  · have hlt' : r * p.numObjsPerBlock + c < st.length + 1 := by
      rw [List.length_append] at hlt
      exact hlt
    obtain hnew | hold := Nat.eq_or_lt_of_le (Nat.le_of_lt_succ hlt')
    · obtain ⟨rfl, rfl⟩ := cell_inj hc' h.col (hnew.trans hheight)
      change Function.update p.poolObjs p.currentRow _ p.currentRow p.currentCol =
        (st ++ [obj])[p.currentRow * p.numObjsPerBlock + p.currentCol]?
      rw [Function.update_self, Function.update_self, hnew,
        List.getElem?_append_right (Nat.le_refl _), Nat.sub_self]
      rfl
    · change Function.update p.poolObjs p.currentRow _ r c =
        (st ++ [obj])[r * p.numObjsPerBlock + c]?
      rw [List.getElem?_append_left hold, ← h.cells r c hc' hold]
      by_cases hr : r = p.currentRow
      · subst hr
        have hne : c ≠ p.currentCol := by
          rintro rfl
          omega
        rw [Function.update_self, Function.update_of_ne hne]
      · rw [Function.update_of_ne hr]

theorem get_pop (h : p.Sound (st ++ [obj])) :
    ∃ p', p.get = some (some obj, p') ∧ p'.Sound st ∧ p'.nextId = p.nextId ∧ Grown p p' 0 := by
  have hheight := h.height
  rw [List.length_append, List.length_singleton] at hheight
  have hblock := h.block
  have hcol := h.col
  unfold PoolObjs.get
  rw [if_neg fun hno => h.blocks hno.2]
  dsimp only
  by_cases hc : p.currentCol ≠ 0
  · rw [if_pos hc]
    obtain ⟨hload, hsound⟩ := h.pop p.currentRow (p.currentCol - 1)
      (by omega) (by omega)
    refine ⟨{ p with init := true, currentCol := p.currentCol - 1 }, ?_, ?_, rfl, rfl, rfl, rfl,
      rfl⟩
    · exact congrArg (Option.map _) hload
    · exact { hsound with }
  · rw [if_neg hc]
    obtain ⟨row, hrow⟩ : ∃ row, p.currentRow = row + 1 := by
      refine Nat.exists_eq_add_one_of_ne_zero ?_
      intro h0
      rw [h0, Nat.zero_mul] at hheight
      omega
    rw [hrow, Nat.succ_mul] at hheight
    rw [if_pos (by omega)]
    obtain ⟨hload, hsound⟩ := h.pop (p.currentRow - 1) (p.numObjsPerBlock - 1)
      (by omega) (by rw [hrow, Nat.add_sub_cancel]; omega)
    refine ⟨{ p with
      init := true
      currentRow := p.currentRow - 1
      currentCol := p.numObjsPerBlock - 1 }, ?_, ?_, rfl, rfl, rfl, rfl, rfl⟩
    · exact congrArg (Option.map _) hload
    · exact { hsound with }

theorem bottom (h : p.Sound []) : p.currentRow = 0 ∧ p.currentCol = 0 := by
  have hblock := h.block
  have hheight : 0 = p.currentRow * p.numObjsPerBlock + p.currentCol := h.height
  refine ⟨?_, by omega⟩
  obtain hzero | hblock0 := Nat.mul_eq_zero.mp (by omega : p.currentRow * p.numObjsPerBlock = 0)
  · exact hzero
  · omega

end Sound

theorem fillRow_spec (hrow : p.currentRow < p.numBlocksAlloc) {n : ℕ}
    (hn : n ≤ p.numObjsPerBlock) :
    ∃ cells, p.fillRow n = some { p with
        poolObjs := cells
        numObjsAlloc := p.numObjsAlloc + n
        nextId := p.nextId + n } ∧
      ∀ c < n, cells p.currentRow c = some (p.nextId + c) := by
  induction n with
  | zero => exact ⟨p.poolObjs, rfl, fun _ hc => absurd hc (Nat.not_lt_zero _)⟩
  | succ n ih =>
    obtain ⟨cells, hfill, hcells⟩ := ih (Nat.le_of_succ_le hn)
    refine ⟨Function.update cells p.currentRow
      (Function.update (cells p.currentRow) n (some (p.nextId + n))), ?_, fun c hc => ?_⟩
    · rw [fillRow, hfill, Option.bind_some]
      exact if_pos ⟨hrow, hn⟩
    · rw [Function.update_self]
      obtain rfl | hlt := Nat.eq_or_lt_of_le (Nat.le_of_lt_succ hc)
      · exact Function.update_self _ _ _
      · rw [Function.update_of_ne (Nat.ne_of_lt hlt), hcells c hlt]

namespace Sound

/-- `Get` on an empty pool makes the objects of a block, or one if there are all blocks, and hands
out the last one. -/
theorem getNew (h : p.Sound []) (hinit : p.init = true) :
    ∃ n p', p.getNew = some (some (p.nextId + n), p') ∧
      p'.Sound (List.range' p.nextId n) ∧ p'.nextId = p.nextId + n + 1 ∧
        (n + 1 = p.numObjsPerBlock ∧ Grown p p' 1 ∨
          n = 0 ∧ p.numBlocksAlloc = p.maxNumBlocks ∧ Grown p p' 0) := by
  obtain ⟨hrow, hcol⟩ := h.bottom
  have hblock := h.block
  unfold PoolObjs.getNew allocABlock
  by_cases hmax : p.maxNumBlocks = p.numBlocksAlloc
  · rw [if_pos hmax]
    exact ⟨0, { p with nextId := p.nextId + 1 }, rfl, { h with }, rfl,
      .inr ⟨rfl, hmax.symm, rfl, rfl, rfl, hinit⟩⟩
  · rw [if_neg hmax]
    obtain ⟨cells, hfill, hcells⟩ := fillRow_spec
      (p := { p with numBlocksAlloc := p.numBlocksAlloc + 1 }) (n := p.numObjsPerBlock)
      (by rw [hrow]; exact Nat.succ_pos _) (Nat.le_refl _)
    rw [hrow] at hcells
    -- the pool with a full row, of which the last object is taken
    let p' : PoolObjs := { p with
      poolObjs := cells
      currentRow := 0
      currentCol := p.numObjsPerBlock - 1
      numObjsAlloc := p.numObjsAlloc + p.numObjsPerBlock
      numBlocksAlloc := p.numBlocksAlloc + 1
      nextId := p.nextId + p.numObjsPerBlock }
    have hlt : p.numObjsPerBlock - 1 < p.numObjsPerBlock := Nat.sub_lt hblock Nat.one_pos
    have hlast : p'.load 0 (p.numObjsPerBlock - 1) = some (p.nextId + (p.numObjsPerBlock - 1)) :=
      (if_pos ⟨Nat.succ_pos _, hlt⟩).trans (hcells _ hlt)
    have hmost := h.most
    refine ⟨p.numObjsPerBlock - 1, p', ?_, ⟨hblock, h.blocks, ?_, hlt, ?_, ?_, ?_⟩, ?_,
      .inl ⟨Nat.sub_add_cancel hblock, rfl, rfl, rfl, hinit⟩⟩
    · rw [hfill]
      exact congrArg (Option.map _) hlast
    · change p.numBlocksAlloc + 1 ≤ p.maxNumBlocks
      omega
    · change 0 * p.numObjsPerBlock + (p.numObjsPerBlock - 1) ≤
        (p.numBlocksAlloc + 1) * p.numObjsPerBlock
      rw [Nat.succ_mul]
      omega
    · rw [List.length_range']
      exact (by omega : p.numObjsPerBlock - 1 = 0 * p.numObjsPerBlock + (p.numObjsPerBlock - 1))
    · intro r c hc hrc
      rw [List.length_range'] at hrc
      have hr : r = 0 := by
        have := lt_of_cell (c := c) (n := 1) (b := p.numObjsPerBlock)
          (Nat.lt_of_lt_of_le hrc (by omega))
        omega
      subst hr
      rw [Nat.zero_mul, Nat.zero_add] at hrc ⊢
      rw [List.getElem?_range' hrc, Nat.one_mul]
      exact hcells c hc
    · change p.nextId + p.numObjsPerBlock = p.nextId + (p.numObjsPerBlock - 1) + 1
      omega

theorem get_new (h : p.Sound []) :
    ∃ n p', p.get = some (some (p.nextId + n), p') ∧
      p'.Sound (List.range' p.nextId n) ∧ p'.nextId = p.nextId + n + 1 ∧
        (n + 1 = p.numObjsPerBlock ∧ Grown p p' 1 ∨
          n = 0 ∧ p.numBlocksAlloc = p.maxNumBlocks ∧ Grown p p' 0) := by
  obtain ⟨hrow, hcol⟩ := h.bottom
  have hsame : Sound { p with init := true } [] := { h with }
  obtain ⟨n, p', hget, hsound, hnext, hgrown⟩ := hsame.getNew rfl
  refine ⟨n, p', ?_, hsound, hnext, ?_⟩
  · unfold PoolObjs.get
    rw [if_neg fun hno => h.blocks hno.2]
    dsimp only
    rw [if_neg (not_not.mpr hcol), if_neg (not_not.mpr hrow)]
    exact hget
  · obtain ⟨hn, hgrown⟩ | ⟨hn, hmax, hgrown⟩ := hgrown
    · exact .inl ⟨hn, { hgrown with }⟩
    · exact .inr ⟨hn, hmax, { hgrown with }⟩

theorem push (h : p.Sound st) (hroom : st.length < p.numBlocksAlloc * p.numObjsPerBlock)
    (hinit : p.init = true) (obj : ℕ) :
    ∃ p', p.push obj = some p' ∧ p'.Sound (st ++ [obj]) ∧ p'.nextId = p.nextId ∧
      Grown p p' 0 := by
  have hheight := h.height
  have hcol := h.col
  unfold PoolObjs.push
  by_cases hlast : p.numObjsPerBlock - 1 ≠ p.currentCol
  · rw [if_pos hlast]
    obtain ⟨cells, hstore, hsound⟩ :=
      h.store hroom obj p.currentRow (p.currentCol + 1) (by omega) (by omega)
    exact ⟨_, congrArg (Option.map _) hstore, hsound, rfl, rfl, rfl, rfl, hinit⟩
  · rw [if_neg hlast]
    have hidx : (p.currentRow + 1) * p.numObjsPerBlock + 0 = st.length + 1 := by
      rw [Nat.succ_mul]
      omega
    obtain ⟨cells, hstore, hsound⟩ := h.store hroom obj _ _ (by omega) hidx
    exact ⟨_, congrArg (Option.map _) hstore, hsound, rfl, rfl, rfl, rfl, hinit⟩

theorem free (h : p.Sound st) (obj : ℕ)
    (hplace : p.currentRow < p.numBlocksAlloc ∨ p.numBlocksAlloc < p.maxNumBlocks) :
    ∃ p' n, p.free obj = some p' ∧ p'.Sound (st ++ [obj]) ∧ p'.nextId = p.nextId ∧
      Grown p p' n := by
  have hroom := h.room
  have hheight := h.height
  have hblock := h.block
  unfold PoolObjs.free
  rw [if_neg fun hno => h.blocks hno.2]
  dsimp only
  by_cases hrow : p.numBlocksAlloc = p.currentRow
  · have hlt : p.numBlocksAlloc < p.maxNumBlocks := by omega
    rw [if_pos hrow, if_neg (Nat.ne_of_gt hlt)]
    have hgrown : Sound { p with init := true, numBlocksAlloc := p.numBlocksAlloc + 1 } st := by
      refine { h with most := hlt, room := ?_ }
      change p.currentRow * p.numObjsPerBlock + p.currentCol ≤
        (p.numBlocksAlloc + 1) * p.numObjsPerBlock
      rw [Nat.succ_mul]
      omega
    obtain ⟨p', hpush, hsound, hnext, hblocks⟩ := hgrown.push (by
      change st.length < (p.numBlocksAlloc + 1) * p.numObjsPerBlock
      rw [Nat.succ_mul]
      omega) rfl obj
    exact ⟨p', 1, hpush, hsound, hnext, { hblocks with }⟩
  · rw [if_neg hrow]
    have hsame : Sound { p with init := true } st := { h with }
    have hrows : p.currentRow ≤ p.numBlocksAlloc :=
      Nat.le_of_mul_le_mul_right
        (by omega : p.currentRow * p.numObjsPerBlock ≤ p.numBlocksAlloc * p.numObjsPerBlock) hblock
    have hle : p.currentRow + 1 ≤ p.numBlocksAlloc := by omega
    have hmul := Nat.mul_le_mul_right p.numObjsPerBlock hle
    rw [Nat.succ_mul] at hmul
    have hcol := h.col
    have hlt : st.length < p.numBlocksAlloc * p.numObjsPerBlock := by omega
    obtain ⟨p', hpush, hsound, hnext, hblocks⟩ := hsame.push hlt rfl obj
    exact ⟨p', 0, hpush, hsound, hnext, { hblocks with }⟩

theorem place (h : p.Sound st) (hroom : st.length < p.numBlocksAlloc * p.numObjsPerBlock) :
    p.currentRow < p.numBlocksAlloc :=
  lt_of_cell (h.height ▸ hroom)

theorem flatMap_range_rows {α : Type*} (f : ℕ → α) (n b : ℕ) :
    (List.range n).flatMap (fun i => (List.range b).map fun j => f (i * b + j)) =
      (List.range (n * b)).map f := by
  induction n with
  | zero => rw [Nat.zero_mul]; rfl
  | succ n ih =>
    rw [List.range_succ, List.flatMap_append, ih, Nat.succ_mul, List.range_add, List.map_append,
      List.map_map]
    simp [Function.comp_def]

theorem destroy (h : p.Sound st) (hinit : p.init = true) : p.destroy = st.map some := by
  have hheight := h.height
  have hroom := h.room
  have hcol := h.col
  -- both loops read the cells below the current one, in order
  have hload (i j : ℕ) (hj : j < p.numObjsPerBlock)
      (hlt : i * p.numObjsPerBlock + j < st.length) :
      p.load i j = st[i * p.numObjsPerBlock + j]? := h.load hj hlt
  have hrows : (List.range p.currentRow).flatMap (fun i =>
      (List.range p.numObjsPerBlock).map fun j => p.load i j) =
        (List.range (p.currentRow * p.numObjsPerBlock)).map fun k => st[k]? := by
    rw [← flatMap_range_rows]
    refine List.flatMap_congr fun i hi => List.map_congr_left fun j hj => hload i j ?_ ?_
    · exact List.mem_range.mp hj
    · have hi' := List.mem_range.mp hi
      have hj' := List.mem_range.mp hj
      have := Nat.mul_le_mul_right p.numObjsPerBlock (Nat.succ_le_of_lt hi')
      rw [Nat.succ_mul] at this
      omega
  have hcols : (if p.currentRow ≠ p.numBlocksAlloc then
      (List.range p.currentCol).map fun i => p.load p.currentRow i else []) =
        (List.range p.currentCol).map fun k => st[p.currentRow * p.numObjsPerBlock + k]? := by
    split_ifs with hrow
    · refine List.map_congr_left fun j hj => hload _ j ?_ ?_
      · exact Nat.lt_trans (List.mem_range.mp hj) hcol
      · have := List.mem_range.mp hj
        omega
    · have hzero : p.currentCol = 0 := by
        rw [not_not] at hrow
        rw [hrow] at hroom
        omega
      rw [hzero]
      rfl
  rw [PoolObjs.destroy, if_pos hinit, hrows, hcols]
  have hall : (List.range (p.currentRow * p.numObjsPerBlock + p.currentCol)).map (fun k => st[k]?) =
      st.map some := by
    rw [← hheight]
    exact List.ext_getElem (by simp) fun k hk hk' => by simp
  rw [← hall, List.range_add, List.map_append, List.map_map]
  rfl

end Sound

theorem destroy_of_not_init (h : p.init = false) : p.destroy = [] := by
  rw [destroy, h]
  rfl

inductive Op
  | get
  | free (obj : ℕ)
  deriving DecidableEq, Repr

end PoolObjs

structure PoolObjsRun where
  pool : PoolObjs
  held : List ℕ
  returned : List ℕ
  given : List ℕ
  fault : Bool

namespace PoolObjsRun

open PoolObjs (Op)

def start (pool : PoolObjs) : PoolObjsRun := ⟨pool, [], [], [], false⟩

def next (s : PoolObjsRun) : Op → PoolObjsRun
  | .get => match s.pool.get with
    | some (some obj, pool) =>
      { s with
        pool := pool
        held := obj :: s.held
        returned := s.returned.tail
        given := obj :: s.given }
    | some (none, pool) => { s with pool := pool }
    | none => { s with fault := true }
  | .free obj => match s.pool.free obj with
    | some pool =>
      { s with pool := pool, held := s.held.erase obj, returned := obj :: s.returned }
    | none => { s with fault := true }

def Enabled (s : PoolObjsRun) : Op → Prop
  | .get => s.held.length < s.pool.maxNumBlocks * s.pool.numObjsPerBlock
  | .free obj => obj ∈ s.held

instance (s : PoolObjsRun) : ∀ op : Op, Decidable (s.Enabled op)
  | .get => inferInstanceAs (Decidable (_ < _))
  | .free _ => inferInstanceAs (Decidable (_ ∈ _))

def machine : Machine PoolObjsRun Op where
  enabled := Enabled
  next := next

instance (s : PoolObjsRun) (op : Op) : Decidable (machine.enabled s op) :=
  inferInstanceAs (Decidable (s.Enabled op))

variable {s : PoolObjsRun}

structure Inv (s : PoolObjsRun) (rest : List ℕ) : Prop where
  running : s.fault = false
  stack : s.pool.Sound (rest ++ s.returned.reverse)
  started : s.pool.init = true ∨ rest = [] ∧ s.returned = []
  distinct : (rest ++ (s.returned ++ s.held)).Nodup
  made : ∀ obj ∈ rest ++ (s.returned ++ s.held), obj < s.pool.nextId
  given : ∀ obj, obj ∈ s.given ↔ obj ∈ s.returned ++ s.held
  fits : rest.length + s.returned.length + s.held.length ≤
    s.pool.numBlocksAlloc * s.pool.numObjsPerBlock

theorem inv_start {pool : PoolObjs} (h : pool.Sound []) : (start pool).Inv [] :=
  ⟨rfl, h, .inr ⟨rfl, rfl⟩, List.nodup_nil, (fun _ hmem => nomatch hmem), fun _ => Iff.rfl,
    Nat.zero_le _⟩

def Complete (s : PoolObjsRun) (rest : List ℕ) : Prop :=
  ∀ obj < s.pool.nextId, obj ∈ rest ++ (s.returned ++ s.held)

def GetOk (s : PoolObjsRun) (rest : List ℕ) : Prop :=
  ∃ obj pool n, s.pool.get = some (some obj, pool) ∧ s.pool.Grown pool n ∧
    (s.returned.head? = some obj ∨ s.returned = [] ∧ obj ∉ s.given) ∧
    (s.Enabled .get → ∃ rest',
      Inv ⟨pool, obj :: s.held, s.returned.tail, obj :: s.given, s.fault⟩ rest' ∧
        (s.Complete rest →
          Complete ⟨pool, obj :: s.held, s.returned.tail, obj :: s.given, s.fault⟩ rest'))

theorem Inv.get_returned {rest : List ℕ} (h : s.Inv rest) {obj : ℕ} {ret : List ℕ}
    (hret : s.returned = obj :: ret) : s.GetOk rest := by
  have hstack := h.stack
  have hdistinct := h.distinct
  have hmade := h.made
  have hfits := h.fits
  rw [hret] at hstack hdistinct hmade hfits
  rw [List.reverse_cons, ← List.append_assoc] at hstack
  obtain ⟨pool, hget, hsound, hnext, hgrown⟩ := hstack.get_pop
  have hperm : (rest ++ (ret ++ obj :: s.held)).Perm (rest ++ (obj :: ret ++ s.held)) :=
    List.perm_middle.append_left rest
  have htail : s.returned.tail = ret := by rw [hret, List.tail_cons]
  refine ⟨obj, pool, 0, hget, hgrown, .inl (by rw [hret, List.head?_cons]), fun _ =>
    ⟨rest, ?_, fun hall o ho => ?_⟩⟩
  · rw [htail]
    refine ⟨h.running, hsound, .inl hgrown.init, hperm.nodup_iff.mpr hdistinct,
      fun o ho => hnext.symm ▸ hmade o (hperm.mem_iff.mp ho), fun o => ?_, ?_⟩
    · have hgiven := h.given o
      rw [hret] at hgiven
      simp only [List.mem_cons, List.cons_append, List.mem_append] at hgiven ⊢
      tauto
    · rw [hgrown.blocks, hgrown.perBlock, Nat.add_zero]
      simp only [List.length_cons] at hfits ⊢
      omega
  · have hmem := hall o (hnext ▸ ho)
    rw [hret] at hmem
    rw [htail]
    exact hperm.mem_iff.mpr hmem

theorem Inv.get_left {rest' : List ℕ} {obj : ℕ} (h : s.Inv (rest' ++ [obj]))
    (hret : s.returned = []) : s.GetOk (rest' ++ [obj]) := by
  have hstack := h.stack
  have hdistinct := h.distinct
  have hmade := h.made
  have hfits := h.fits
  rw [hret] at hstack hdistinct hmade hfits
  rw [List.reverse_nil, List.append_nil] at hstack
  obtain ⟨pool, hget, hsound, hnext, hgrown⟩ := hstack.get_pop
  have hperm : (rest' ++ obj :: s.held).Perm (rest' ++ [obj] ++ ([] ++ s.held)) := by
    rw [List.append_assoc]
    rfl
  have htail : s.returned.tail = [] := by rw [hret, List.tail_nil]
  refine ⟨obj, pool, 0, hget, hgrown, .inr ⟨hret, fun hin => ?_⟩, fun _ =>
    ⟨rest', ?_, fun hall o ho => ?_⟩⟩
  · have hheld : obj ∈ s.held := by simpa [hret] using (h.given obj).mp hin
    refine (List.nodup_append.mp hdistinct).2.2 obj ?_ obj hheld rfl
    exact List.mem_append_right _ List.mem_cons_self
  · rw [htail]
    refine ⟨h.running, ?_, .inl hgrown.init, hperm.nodup_iff.mpr hdistinct,
      fun o ho => hnext.symm ▸ hmade o (hperm.mem_iff.mp ho), fun o => ?_, ?_⟩
    · exact (List.append_nil _).symm ▸ hsound
    · have hgiven := h.given o
      rw [hret] at hgiven
      simp only [List.mem_cons, List.nil_append] at hgiven ⊢
      tauto
    · rw [hgrown.blocks, hgrown.perBlock, Nat.add_zero]
      simp only [List.length_append, List.length_cons, List.length_nil] at hfits ⊢
      omega
  · have hmem := hall o (hnext ▸ ho)
    rw [hret] at hmem
    rw [htail]
    exact hperm.mem_iff.mpr hmem

theorem Inv.get_made (h : s.Inv []) (hret : s.returned = []) : s.GetOk [] := by
  have hstack := h.stack
  have hdistinct := h.distinct
  have hmade := h.made
  have hfits := h.fits
  rw [hret] at hstack hdistinct hmade hfits
  obtain ⟨n, pool, hget, hsound, hnext, hgrown⟩ := hstack.get_new
  have hheld : ∀ o ∈ s.held, o < s.pool.nextId := hmade
  have htail : s.returned.tail = [] := by rw [hret, List.tail_nil]
  obtain ⟨k, hk⟩ : ∃ k, s.pool.Grown pool k := hgrown.elim (⟨1, ·.2⟩) (⟨0, ·.2.2⟩)
  refine ⟨_, pool, k, hget, hk, .inr ⟨hret, fun hin => ?_⟩, fun hroom =>
    ⟨List.range' s.pool.nextId n, ?_, fun hall o ho => ?_⟩⟩
  · have hmem : s.pool.nextId + n ∈ s.held := by simpa [hret] using (h.given _).mp hin
    have hlt := hheld _ hmem
    omega
  · rw [htail]
    refine ⟨h.running, ?_, .inl hk.init, ?_, fun o ho => ?_, fun o => ?_, ?_⟩
    · exact (List.append_nil _).symm ▸ hsound
    · refine List.nodup_append.mpr ⟨List.nodup_range', List.nodup_cons.mpr
        ⟨fun hin => ?_, hdistinct⟩, fun o ho o' ho' => ?_⟩
      · have hlt := hheld _ hin
        omega
      · have hlt := List.mem_range'_1.mp ho
        obtain rfl | hin := List.mem_cons.mp ho'
        · omega
        · have hlt' := hheld _ hin
          omega
    · change o < pool.nextId
      obtain ho | ho := List.mem_append.mp ho
      · have hlt := List.mem_range'_1.mp ho
        omega
      · obtain rfl | hin := List.mem_cons.mp ho
        · omega
        · have hlt := hheld _ hin
          omega
    · have hgiven := h.given o
      rw [hret] at hgiven
      simp only [List.mem_cons, List.nil_append] at hgiven ⊢
      tauto
    · have hlt : s.held.length < s.pool.maxNumBlocks * s.pool.numObjsPerBlock := hroom
      simp only [List.length_nil, Nat.zero_add, List.length_range', List.length_cons] at hfits ⊢
      obtain ⟨hn, hgrown⟩ | ⟨hn, hmax, hgrown⟩ := hgrown
      · rw [hgrown.blocks, hgrown.perBlock, Nat.succ_mul]
        omega
      · rw [hgrown.blocks, hgrown.perBlock, hmax]
        simp only [Nat.add_zero]
        omega
  · have hlt : o < s.pool.nextId + n + 1 := hnext ▸ ho
    rw [htail, List.nil_append, List.mem_append, List.mem_cons, List.mem_range'_1]
    obtain hold | hnew := Nat.lt_or_ge o s.pool.nextId
    · have hmem := hall o hold
      rw [hret, List.nil_append, List.nil_append] at hmem
      exact .inr (.inr hmem)
    · omega

theorem Inv.get {rest : List ℕ} (h : s.Inv rest) : s.GetOk rest := by
  cases hret : s.returned with
  | cons obj ret => exact h.get_returned hret
  | nil =>
    obtain rfl | ⟨rest', obj, rfl⟩ := List.eq_nil_or_concat' rest
    · exact h.get_made hret
    · exact h.get_left hret

theorem Inv.free {rest : List ℕ} (h : s.Inv rest) {obj : ℕ} (hheld : obj ∈ s.held) :
    ∃ pool n, s.pool.free obj = some pool ∧ s.pool.Grown pool n ∧
      Inv ⟨pool, s.held.erase obj, obj :: s.returned, s.given, s.fault⟩ rest ∧
        (s.Complete rest →
          Complete ⟨pool, s.held.erase obj, obj :: s.returned, s.given, s.fault⟩ rest) := by
  have hlen := (List.perm_cons_erase hheld).length_eq
  have hfits := h.fits
  rw [List.length_cons] at hlen
  have hroom : (rest ++ s.returned.reverse).length <
      s.pool.numBlocksAlloc * s.pool.numObjsPerBlock := by
    rw [List.length_append, List.length_reverse]
    omega
  obtain ⟨pool, n, hfree, hsound, hnext, hgrown⟩ := h.stack.free obj (.inl (h.stack.place hroom))
  have hperm : (rest ++ (obj :: s.returned ++ s.held.erase obj)).Perm
      (rest ++ (s.returned ++ s.held)) := by
    refine List.Perm.append_left rest ?_
    exact List.perm_middle.symm.trans ((List.perm_cons_erase hheld).symm.append_left s.returned)
  refine ⟨pool, n, hfree, hgrown, ⟨h.running, ?_, .inl hgrown.init,
    hperm.nodup_iff.mpr h.distinct, fun o ho => ?_, fun o => ?_, ?_⟩,
    fun hall o ho => hperm.mem_iff.mpr (hall o (hnext ▸ ho))⟩
  · rw [List.reverse_cons, ← List.append_assoc]
    exact hsound
  · exact hnext.symm ▸ h.made o (hperm.mem_iff.mp ho)
  · refine (h.given o).trans ?_
    have hmem := (List.perm_cons_erase hheld).mem_iff (a := o)
    simp only [List.mem_append, List.mem_cons, List.cons_append] at hmem ⊢
    tauto
  · rw [hgrown.blocks, hgrown.perBlock, Nat.add_mul, List.length_cons]
    dsimp only
    omega

/-- No object is handed out twice unless it came back between, the one that came back last is the
next one to be handed out, and of the objects that were made the destructor deletes every one that
is not held, once. -/
structure IsPool (s : PoolObjsRun) : Prop where
  running : s.fault = false
  distinct : (s.returned ++ s.held).Nodup
  get : ∃ obj pool, s.pool.get = some (some obj, pool) ∧
    (s.returned.head? = some obj ∨ s.returned = [] ∧ obj ∉ s.given)
  destroy : ∃ objs : List ℕ, s.pool.destroy = objs.map some ∧ (objs ++ s.held).Nodup ∧
    ∀ obj, obj ∈ objs ++ s.held ↔ obj < s.pool.nextId

theorem Inv.isPool {rest : List ℕ} (h : s.Inv rest) (hall : s.Complete rest) : s.IsPool := by
  obtain ⟨obj, pool, -, hget, -, hwhich, -⟩ := h.get
  have hdestroy : s.pool.destroy = (rest ++ s.returned.reverse).map some := by
    obtain hinit | ⟨rfl, hret⟩ := h.started
    · exact h.stack.destroy hinit
    · by_cases hinit : s.pool.init = true
      · exact h.stack.destroy hinit
      · rw [PoolObjs.destroy_of_not_init (Bool.eq_false_iff.mpr hinit), hret]
        rfl
  have hperm : (rest ++ s.returned.reverse ++ s.held).Perm (rest ++ (s.returned ++ s.held)) := by
    rw [List.append_assoc]
    exact (s.returned.reverse_perm.append_right s.held).append_left rest
  refine ⟨h.running, h.distinct.of_append_right, ⟨obj, pool, hget, hwhich⟩, _, hdestroy,
    hperm.nodup_iff.mpr h.distinct, fun o => ?_⟩
  rw [hperm.mem_iff]
  exact ⟨h.made o, hall o⟩

theorem Inv.next {rest : List ℕ} (h : s.Inv rest) (hall : s.Complete rest) {op : Op}
    (hop : s.Enabled op) : ∃ rest', (s.next op).Inv rest' ∧ (s.next op).Complete rest' := by
  cases op with
  | get =>
    obtain ⟨obj, pool, n, hget, -, -, hnext⟩ := h.get
    obtain ⟨rest', hinv, hcomplete⟩ := hnext hop
    refine ⟨rest', ?_⟩
    unfold PoolObjsRun.next
    dsimp only
    rw [hget]
    exact ⟨hinv, hcomplete hall⟩
  | free obj =>
    obtain ⟨pool, n, hfree, -, hinv, hcomplete⟩ := h.free hop
    refine ⟨rest, ?_⟩
    unfold PoolObjsRun.next
    dsimp only
    rw [hfree]
    exact ⟨hinv, hcomplete hall⟩

theorem exec_isPool {sizeofObj memPerBlock maxNumBlocks : ℕ} (hsize : 0 < sizeofObj)
    (hmem : 0 < memPerBlock) (hmax : maxNumBlocks ≠ 0) {ops : List Op}
    (hops : machine.Admits (start (.new sizeofObj memPerBlock maxNumBlocks)) ops) :
    (machine.exec (start (.new sizeofObj memPerBlock maxNumBlocks)) ops).IsPool := by
  have hstart : ∃ rest, (start (.new sizeofObj memPerBlock maxNumBlocks)).Inv rest ∧
      (start (.new sizeofObj memPerBlock maxNumBlocks)).Complete rest :=
    ⟨[], inv_start (PoolObjs.sound_new hsize hmem hmax),
      fun _ hlt => absurd hlt (Nat.not_lt_zero _)⟩
  obtain ⟨rest, h, hall⟩ := machine.invariant (I := fun s => ∃ rest, s.Inv rest ∧ s.Complete rest)
    (fun s op ⟨rest, h, hall⟩ hop => h.next hall hop) hstart hops
  exact h.isPool hall

def twoBlocksRun : List Op := [.get, .get, .get, .free 1, .free 0, .get]

theorem exec_isPool_twoBlocksRun :
    (machine.exec (start (.new 40 80 2)) twoBlocksRun).held = [0, 3] ∧
      (machine.exec (start (.new 40 80 2)) twoBlocksRun).IsPool :=
  ⟨by decide, exec_isPool (by decide) (by decide) (by decide) (by decide)⟩

end PoolObjsRun

end Magneto
