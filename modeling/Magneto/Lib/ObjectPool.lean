import Magneto.Lib.ListSet
import Mathlib.Data.List.Nodup

/-!
# Keyed pools of reusable objects

A pool hands out the most recently returned object of a key, or a new one when
none is left. The stack of a key is the sublist of `free` with that key. Two
ledgers record which identities were handed out and which came back, so that
ownership is a statement about lists: `Sound` says that no identity is both
free and held, or held twice, and `Balanced` that every identity handed out is
either back or held.
-/

structure PoolObj (κ α : Type) where
  id : ℕ
  key : κ
  val : α
  deriving DecidableEq, Repr

/-- What a copy of `o` is once `o'` has been written to. -/
def PoolObj.follow {κ α : Type} (o' o : PoolObj κ α) : PoolObj κ α := if o.id = o'.id then o' else o

@[simp] theorem PoolObj.follow_id {κ α : Type} (o' o : PoolObj κ α) : (o'.follow o).id = o.id := by
  unfold PoolObj.follow
  split_ifs with h
  · exact h.symm
  · rfl

@[simp] theorem PoolObj.follow_self {κ α : Type} (o : PoolObj κ α) : o.follow o = o := if_pos rfl

theorem PoolObj.follow_of_ne {κ α : Type} {o' o : PoolObj κ α} (h : o.id ≠ o'.id) :
    o'.follow o = o := if_neg h

theorem PoolObj.follow_of_eq {κ α : Type} {o' o : PoolObj κ α} (h : o.id = o'.id) :
    o'.follow o = o' := if_pos h

structure ObjectPool (κ α : Type) where
  free : List (PoolObj κ α)
  nextId : ℕ
  taken : List ℕ
  given : List ℕ

namespace ObjectPool

variable {κ α : Type}

def empty : ObjectPool κ α := ⟨[], 0, [], []⟩

def put (p : ObjectPool κ α) (o : PoolObj κ α) : ObjectPool κ α :=
  { p with free := o :: p.free, given := o.id :: p.given }

def follow (p : ObjectPool κ α) (o : PoolObj κ α) : ObjectPool κ α :=
  { p with free := p.free.map o.follow }

def ids (os : List (PoolObj κ α)) : List ℕ := os.map PoolObj.id

@[simp] theorem ids_nil : ids ([] : List (PoolObj κ α)) = [] := rfl

@[simp] theorem ids_follow (p : ObjectPool κ α) (o : PoolObj κ α) :
    ids (p.follow o).free = ids p.free := by
  simp [ids, follow]

theorem follow_of_not_mem {p : ObjectPool κ α} {o : PoolObj κ α} (h : o.id ∉ ids p.free) :
    p.follow o = p := by
  have hmap : p.free.map o.follow = p.free := by
    refine (List.map_congr_left fun x hx => ?_).trans (List.map_id p.free)
    exact PoolObj.follow_of_ne fun he => h (he ▸ List.mem_map_of_mem hx)
  rw [follow, hmap]

structure Sound (p : ObjectPool κ α) (held : List ℕ) : Prop where
  nodup : (ids p.free ++ held).Nodup
  bound : ∀ i ∈ ids p.free ++ held, i < p.nextId

def Balanced (p : ObjectPool κ α) (held : List ℕ) : Prop :=
  p.taken.Perm (p.given ++ held)

theorem Sound.perm {p : ObjectPool κ α} {held held' : List ℕ} (h : p.Sound held)
    (hp : held.Perm held') : p.Sound held' :=
  ⟨(hp.append_left _).nodup_iff.mp h.nodup,
    fun i hi => h.bound i ((hp.append_left _).mem_iff.mpr hi)⟩

theorem Balanced.perm {p : ObjectPool κ α} {held held' : List ℕ} (h : p.Balanced held)
    (hp : held.Perm held') : p.Balanced held' :=
  h.trans (hp.append_left _)

theorem Sound.follow {p : ObjectPool κ α} {held : List ℕ} (h : p.Sound held) (o : PoolObj κ α) :
    (p.follow o).Sound held :=
  ⟨by rw [ids_follow]; exact h.nodup, by rw [ids_follow]; exact h.bound⟩

theorem Balanced.follow {p : ObjectPool κ α} {held : List ℕ} (h : p.Balanced held)
    (o : PoolObj κ α) : (p.follow o).Balanced held := h

theorem Sound.put {p : ObjectPool κ α} {o : PoolObj κ α} {held : List ℕ}
    (h : p.Sound (o.id :: held)) : (p.put o).Sound held := by
  have hp : (ids p.free ++ o.id :: held).Perm (ids (p.put o).free ++ held) := List.perm_middle
  exact ⟨hp.nodup_iff.mp h.nodup, fun i hi => h.bound i (hp.mem_iff.mpr hi)⟩

theorem Balanced.put {p : ObjectPool κ α} {o : PoolObj κ α} {held : List ℕ}
    (h : p.Balanced (o.id :: held)) : (p.put o).Balanced held :=
  h.trans List.perm_middle

section get
variable [DecidableEq κ]

def get (p : ObjectPool κ α) (k : κ) (new : α) : PoolObj κ α × ObjectPool κ α :=
  match p.free.find? (fun o => o.key = k) with
  | some o => (o, { p with
      free := p.free.eraseP (fun o => o.key = k)
      taken := o.id :: p.taken })
  | none => (⟨p.nextId, k, new⟩, { p with
      nextId := p.nextId + 1
      taken := p.nextId :: p.taken })

theorem get_key (p : ObjectPool κ α) (k : κ) (new : α) : (p.get k new).1.key = k := by
  unfold get
  split
  · rename_i o ho
    simpa using List.find?_some ho
  · rfl

@[simp] theorem get_given (p : ObjectPool κ α) (k : κ) (new : α) :
    (p.get k new).2.given = p.given := by
  unfold get
  split <;> rfl

@[simp] theorem get_taken (p : ObjectPool κ α) (k : κ) (new : α) :
    (p.get k new).2.taken = (p.get k new).1.id :: p.taken := by
  unfold get
  split <;> rfl

theorem Sound.get {p : ObjectPool κ α} {held : List ℕ} (h : p.Sound held) (k : κ) (new : α) :
    (p.get k new).2.Sound ((p.get k new).1.id :: held) := by
  unfold ObjectPool.get
  split
  · rename_i o ho
    have hp : (ids p.free ++ held).Perm
        (ids (p.free.eraseP (fun o => o.key = k)) ++ o.id :: held) := by
      have hf := ((List.perm_cons_eraseP_of_find? ho).map PoolObj.id).append_right held
      exact hf.trans List.perm_middle.symm
    exact ⟨hp.nodup_iff.mp h.nodup, fun i hi => h.bound i (hp.mem_iff.mpr hi)⟩
  · have hp : (p.nextId :: (ids p.free ++ held)).Perm (ids p.free ++ p.nextId :: held) :=
      List.perm_middle.symm
    refine ⟨hp.nodup_iff.mp (List.nodup_cons.mpr ⟨?_, h.nodup⟩), ?_⟩
    · intro hi
      exact Nat.lt_irrefl _ (h.bound _ hi)
    · intro i hi
      rcases List.mem_cons.mp (hp.mem_iff.mpr hi) with rfl | hi
      · exact Nat.lt_succ_self _
      · exact Nat.lt_succ_of_lt (h.bound i hi)

theorem get_mem (p : ObjectPool κ α) (k : κ) (new : α) :
    (p.get k new).1.val = new ∨ (p.get k new).1 ∈ p.free := by
  unfold get
  split
  · rename_i o ho
    exact .inr (List.mem_of_find?_eq_some ho)
  · exact .inl rfl

theorem get_free_subset (p : ObjectPool κ α) (k : κ) (new : α) :
    (p.get k new).2.free ⊆ p.free := by
  unfold get
  split
  · exact List.eraseP_subset
  · exact List.Subset.refl _

theorem Balanced.get {p : ObjectPool κ α} {held : List ℕ} (h : p.Balanced held) (k : κ)
    (new : α) : (p.get k new).2.Balanced ((p.get k new).1.id :: held) := by
  unfold Balanced
  rw [get_taken, get_given]
  exact (List.Perm.cons _ h).trans List.perm_middle.symm

end get

structure Owned (p : ObjectPool κ α) (held : List ℕ) : Prop where
  sound : p.Sound held
  balanced : p.Balanced held

theorem Owned.perm {p : ObjectPool κ α} {held held' : List ℕ} (h : p.Owned held)
    (hp : held.Perm held') : p.Owned held' := ⟨h.sound.perm hp, h.balanced.perm hp⟩

theorem Owned.follow {p : ObjectPool κ α} {held : List ℕ} (h : p.Owned held)
    (o : PoolObj κ α) : (p.follow o).Owned held := ⟨h.sound.follow o, h.balanced.follow o⟩

theorem Owned.put {p : ObjectPool κ α} {o : PoolObj κ α} {held : List ℕ}
    (h : p.Owned (o.id :: held)) : (p.put o).Owned held := ⟨h.sound.put, h.balanced.put⟩

theorem Owned.get [DecidableEq κ] {p : ObjectPool κ α} {held : List ℕ} (h : p.Owned held) (k : κ)
    (new : α) : (p.get k new).2.Owned ((p.get k new).1.id :: held) :=
  ⟨h.sound.get k new, h.balanced.get k new⟩

theorem Owned.not_mem_free {p : ObjectPool κ α} {held : List ℕ} (h : p.Owned held) {i : ℕ}
    (hi : i ∈ held) : i ∉ ids p.free :=
  fun hf => (List.nodup_append.mp h.sound.nodup).2.2 i hf i hi rfl

theorem owned_empty : (empty : ObjectPool κ α).Owned [] :=
  ⟨⟨List.nodup_nil, by simp [empty]⟩, List.Perm.nil⟩

/-- The identities made so far are the free and the held ones, each once. -/
structure Accounted (p : ObjectPool κ α) (held : List ℕ) : Prop where
  ids : (ids p.free ++ held).Perm (List.range p.nextId)
  taken : ∀ i ∈ p.taken, i < p.nextId

theorem Accounted.perm {p : ObjectPool κ α} {held held' : List ℕ} (h : p.Accounted held)
    (hp : held.Perm held') : p.Accounted held' :=
  ⟨(hp.symm.append_left _).trans h.ids, h.taken⟩

theorem Accounted.put {p : ObjectPool κ α} {o : PoolObj κ α} {held : List ℕ}
    (h : p.Accounted (o.id :: held)) : (p.put o).Accounted held :=
  ⟨List.perm_middle.symm.trans h.ids, h.taken⟩

theorem Accounted.get [DecidableEq κ] {p : ObjectPool κ α} {held : List ℕ} (h : p.Accounted held)
    (k : κ) (new : α) : (p.get k new).2.Accounted ((p.get k new).1.id :: held) := by
  unfold ObjectPool.get
  split
  · rename_i o ho
    have hfree : (ObjectPool.ids p.free).Perm
        (o.id :: ObjectPool.ids (p.free.eraseP (fun o => o.key = k))) :=
      (List.perm_cons_eraseP_of_find? ho).map PoolObj.id
    have hlt : o.id < p.nextId :=
      List.mem_range.mp (h.ids.mem_iff.mp (List.mem_append_left _ (hfree.mem_iff.mpr (by simp))))
    refine ⟨(List.perm_middle.trans (hfree.symm.append_right held)).trans h.ids, ?_⟩
    exact List.forall_mem_cons.mpr ⟨hlt, h.taken⟩
  · refine ⟨List.perm_middle.trans ?_, ?_⟩
    · rw [List.range_succ]
      exact (h.ids.cons p.nextId).trans (List.perm_append_singleton _ _).symm
    · exact List.forall_mem_cons.mpr
        ⟨Nat.lt_succ_self _, fun i hi => Nat.lt_succ_of_lt (h.taken i hi)⟩

theorem accounted_empty : (empty : ObjectPool κ α).Accounted [] :=
  ⟨List.Perm.nil, by simp [empty]⟩

/-- An identity that was handed out is held, or back once. -/
theorem Accounted.settled {p : ObjectPool κ α} {held : List ℕ} (h : p.Accounted held) {i : ℕ}
    (hi : i ∈ p.taken) :
    i ∈ held ∧ i ∉ ObjectPool.ids p.free ∨
      (ObjectPool.ids p.free).count i = 1 ∧ i ∉ held := by
  have hmem : i ∈ ObjectPool.ids p.free ++ held :=
    h.ids.mem_iff.mpr (List.mem_range.mpr (h.taken i hi))
  have hnodup : (ObjectPool.ids p.free ++ held).Nodup := h.ids.nodup_iff.mpr List.nodup_range
  obtain ⟨hfree, -, hdisj⟩ := List.nodup_append.mp hnodup
  rcases List.mem_append.mp hmem with hf | hh
  · exact .inr ⟨List.count_eq_one_of_mem hfree hf, fun hh => hdisj i hf i hh rfl⟩
  · exact .inl ⟨hh, fun hf => hdisj i hf i hh rfl⟩

end ObjectPool
