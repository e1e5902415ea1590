import Magneto.ConnsCalls
import Magneto.IOBasic
import Magneto.Server
import Magneto.Lib.Vec

/-!
# The message that ends a request

`MsgDestruct::BuildForDestruct`, and `HandleMsgDestruct_` as far as it gives the cached
connections back. Up to `kSizeSmallCache` connections go into the array of the message, more of
them into a vector on the heap. A procedure builds all its messages in one object, whose
constructor sets neither `num` nor `big_cache`: the half that is not written keeps what it
held. `XFC_NEW` does not fail. The message holds pointers to the remotes; `FreeFd` reads a
remote when it is called, and through a pointer beyond the end of `tmp_remotes_` it reads
whatever the memory holds there.
-/

namespace Magneto

abbrev CachedPair := ℤ × Option RemoteRef

def CachedFd.pair (e : CachedFd) : CachedPair := (e.fd, e.remote)

def ServiceCache.pairs (cache : ServiceCache) : List CachedPair := cache.map CachedFd.pair

/-- The vectors of `big_cache` pointers by address, and a history: how often an address was
allocated, and which of its allocations were deleted. -/
structure BigCaches where
  vectors : ℕ → Option (List CachedPair)
  news : ℕ → ℕ
  deletes : List (ℕ × ℕ)

namespace BigCaches

def empty : BigCaches := ⟨fun _ => none, fun _ => 0, []⟩

def new (heap : BigCaches) (addr : ℕ) (pairs : List CachedPair) : BigCaches where
  vectors := Function.update heap.vectors addr (some pairs)
  news := Function.update heap.news addr (heap.news addr + 1)
  deletes := heap.deletes

def delete (heap : BigCaches) (addr : ℕ) : BigCaches :=
  { heap with
    vectors := Function.update heap.vectors addr none
    deletes := heap.deletes ++ [(addr, heap.news addr)] }

structure Ok (heap : BigCaches) : Prop where
  live : ∀ a, heap.news a ≠ 0 ∧ (a, heap.news a) ∉ heap.deletes ↔ (heap.vectors a).isSome = true
  deletes_le : ∀ d ∈ heap.deletes, d.2 ≤ heap.news d.1

variable {heap : BigCaches}

theorem Ok.empty : empty.Ok := ⟨fun _ => by simp [BigCaches.empty], by simp [BigCaches.empty]⟩

theorem Ok.new (h : heap.Ok) (addr : ℕ) (pairs : List CachedPair) : (heap.new addr pairs).Ok := by
  refine ⟨fun a => ?_, fun d hd => ?_⟩
  · by_cases ha : a = addr
    · subst ha
      have hfresh : (a, heap.news a + 1) ∉ heap.deletes := fun hmem =>
        Nat.not_succ_le_self _ (h.deletes_le _ hmem)
      simp [BigCaches.new, hfresh]
    · simpa [BigCaches.new, ha] using h.live a
  · have hle := h.deletes_le d hd
    by_cases ha : d.1 = addr
    · rw [ha] at hle
      simp only [BigCaches.new, ha, Function.update_self]
      exact Nat.le_succ_of_le hle
    · simpa [BigCaches.new, ha] using hle

theorem Ok.delete (h : heap.Ok) (addr : ℕ) : (heap.delete addr).Ok := by
  refine ⟨fun a => ?_, fun d hd => ?_⟩
  · by_cases ha : a = addr
    · subst ha
      simp [BigCaches.delete]
    · simpa [BigCaches.delete, ha] using h.live a
  · rcases List.mem_append.mp hd with hd | hd
    · exact h.deletes_le d hd
    · rw [List.mem_singleton.mp hd]
      exact Nat.le_refl _

theorem vectors_new_of_ne {a addr : ℕ} (h : a ≠ addr) (pairs : List CachedPair) :
    (heap.new addr pairs).vectors a = heap.vectors a := Function.update_of_ne h _ _

theorem vectors_delete_of_ne {a addr : ℕ} (h : a ≠ addr) :
    (heap.delete addr).vectors a = heap.vectors a := Function.update_of_ne h _ _

end BigCaches

def MsgDestruct.kSizeSmallCache : ℕ := 15

/-- `smallCache` is the array, which is never written outside its bounds; `bigCache` is an
address, `none` when null. -/
structure MsgDestruct where
  client : ClientReq
  smallCache : Vec CachedPair
  num : ℕ
  bigCache : Option ℕ
  size_smallCache : smallCache.size = MsgDestruct.kSizeSmallCache
  inside : smallCache.outside = []

namespace MsgDestruct

variable {m : MsgDestruct} {heap : BigCaches}

theorem store_pairs (m : MsgDestruct) {cache : ServiceCache}
    (h : cache.length ≤ kSizeSmallCache) :
    m.smallCache.store 0 cache.pairs =
      { m.smallCache with elems := cache.pairs ++ m.smallCache.elems.drop cache.length } := by
  have hfits : 0 + cache.pairs.length ≤ m.smallCache.size := by
    rwa [m.size_smallCache, ServiceCache.pairs, List.length_map, Nat.zero_add]
  rw [Vec.store_of_le _ hfits, List.take_zero, List.nil_append, Nat.zero_add,
    ServiceCache.pairs, List.length_map]

/-- `cache` lists the service cache in the order of its iterator; `addr` is where `XFC_NEW`
puts the vector. -/
def buildForDestruct (m : MsgDestruct) (client : ClientReq) (cache : ServiceCache) (addr : ℕ)
    (heap : BigCaches) : MsgDestruct × BigCaches :=
  if h : cache.length ≤ kSizeSmallCache then
    ({ client := client
       smallCache := m.smallCache.store 0 cache.pairs
       num := cache.length
       bigCache := none
       size_smallCache := by rw [Vec.size_store, m.size_smallCache]
       inside := by rw [store_pairs m h, m.inside] }, heap)
  else ({ m with client := client, bigCache := some addr }, heap.new addr cache.pairs)

theorem buildForDestruct_cases (m : MsgDestruct) (client : ClientReq) (cache : ServiceCache)
    (addr : ℕ) (heap : BigCaches) :
    (m.buildForDestruct client cache addr heap).1.bigCache = none ∧
        (m.buildForDestruct client cache addr heap).2 = heap ∨
      (m.buildForDestruct client cache addr heap).1.bigCache = some addr ∧
        (m.buildForDestruct client cache addr heap).2 = heap.new addr cache.pairs := by
  unfold buildForDestruct
  split_ifs
  · exact .inl ⟨rfl, rfl⟩
  · exact .inr ⟨rfl, rfl⟩

def reads (m : MsgDestruct) (heap : BigCaches) : Option (List (Option CachedPair)) :=
  match m.bigCache with
  | none => some ((List.range m.num).map fun i => m.smallCache.elems[i]?)
  | some addr => (heap.vectors addr).map (List.map some)

def Carries (heap : BigCaches) (m : MsgDestruct) (cache : ServiceCache) : Prop :=
  ∃ order : ServiceCache, order.Perm cache ∧ m.reads heap = some (order.pairs.map some)

theorem reads_congr {heap' : BigCaches}
    (h : ∀ addr ∈ m.bigCache, heap'.vectors addr = heap.vectors addr) :
    m.reads heap' = m.reads heap := by
  unfold reads
  cases hbig : m.bigCache with
  | none => rfl
  | some addr => exact congrArg (Option.map (List.map some)) (h addr hbig)

theorem Carries.congr {heap' : BigCaches} {cache : ServiceCache} (h : Carries heap m cache)
    (hkept : ∀ addr ∈ m.bigCache, heap'.vectors addr = heap.vectors addr) :
    Carries heap' m cache := by
  obtain ⟨order, hperm, hreads⟩ := h
  exact ⟨order, hperm, (reads_congr hkept).trans hreads⟩

theorem buildForDestruct_carries (m : MsgDestruct) (client : ClientReq)
    {order cache : ServiceCache} (hperm : order.Perm cache) (addr : ℕ) (heap : BigCaches) :
    Carries (m.buildForDestruct client order addr heap).2
      (m.buildForDestruct client order addr heap).1 cache := by
  refine ⟨order, hperm, ?_⟩
  unfold buildForDestruct
  split_ifs with h
  · simp only [reads, store_pairs m h]
    refine congrArg some (List.ext_getElem ?_ fun i h1 h2 => ?_)
    · simp [ServiceCache.pairs]
    · have hlt : i < order.pairs.length := by simpa using h2
      rw [List.getElem_map, List.getElem_map, List.getElem_range, List.getElem?_append_left hlt,
        List.getElem?_eq_getElem hlt]
  · simp [reads, BigCaches.new]

end MsgDestruct

def ConnsMgr.Call.freed : ConnsMgr.Call → Option ℤ
  | .freeFd _ fd _ => some fd
  | _ => none

/-- An agent slave as far as cached connections go. `calls` is a history of the calls on
`conns_mgr_`, `freed` of the pairs for which `FreeFd` was called, and `handed` of the service
caches that procedures sent to this slave. -/
structure SlaveConns where
  mailbox : List MsgDestruct
  mgr : ConnsMgr
  calls : List ConnsMgr.Call
  freed : List CachedPair
  handed : List ServiceCache

structure FreePass where
  now : ℤ
  stray : Remote

namespace SlaveConns

def init (mgr : ConnsMgr) : SlaveConns := ⟨[], mgr, [], [], []⟩

def call (a : SlaveConns) (c : ConnsMgr.Call) : Option SlaveConns :=
  (a.mgr.call c).map fun r => { a with mgr := r.2, calls := a.calls ++ [c] }

def freeFd (pass : FreePass) (a : SlaveConns) (fd : ℤ) (ref : RemoteRef) : Option SlaveConns :=
  { a with freed := a.freed ++ [(fd, some ref)] }.call
    (.freeFd ((ref.deref a.mgr.tmpRemotes).getD pass.stray) fd pass.now)

/-- One pass of either loop. An element outside the array and a null remote have no result. -/
def freeConn (pass : FreePass) (a : SlaveConns) (pair : Option CachedPair) : Option SlaveConns :=
  pair.bind fun pair => pair.2.bind fun ref => a.freeFd pass pair.1 ref

def freeConns (passes : ℕ → FreePass) :
    ℕ → List (Option CachedPair) → SlaveConns → Option SlaveConns
  | _, [], a => some a
  | i, pair :: pairs, a => (a.freeConn (passes i) pair).bind (freeConns passes (i + 1) pairs)

def handleMsgDestruct (passes : ℕ → FreePass) (a : SlaveConns) (m : MsgDestruct)
    (heap : BigCaches) :
    Option (SlaveConns × BigCaches) :=
  match m.bigCache with
  | none =>
    (freeConns passes 0 ((List.range m.num).map fun i => m.smallCache.elems[i]?) a).map (·, heap)
  | some addr => (heap.vectors addr).bind fun pairs =>
    (freeConns passes 0 (pairs.map some) a).map (·, heap.delete addr)

structure Traced (mgr₀ : ConnsMgr) (a : SlaveConns) : Prop where
  mgr : a.mgr = ConnsMgr.calls.exec mgr₀ a.calls
  freed : a.calls.filterMap ConnsMgr.Call.freed = a.freed.map Prod.fst

variable {a a' : SlaveConns} {mgr₀ : ConnsMgr}

theorem Traced.congr (h : a.Traced mgr₀) (hmgr : a'.mgr = a.mgr) (hcalls : a'.calls = a.calls)
    (hfreed : a'.freed = a.freed) : a'.Traced mgr₀ :=
  ⟨by rw [hmgr, hcalls]; exact h.mgr, by rw [hcalls, hfreed]; exact h.freed⟩

theorem exec_call (h : a.mgr = ConnsMgr.calls.exec mgr₀ a.calls) {c : ConnsMgr.Call}
    {r : ConnsMgr.Effect × ConnsMgr} (hr : a.mgr.call c = some r) :
    r.2 = ConnsMgr.calls.exec mgr₀ (a.calls ++ [c]) := by
  have hnext : ConnsMgr.calls.next a.mgr c = r.2 := by
    simp only [ConnsMgr.calls, hr, Option.map_some, Option.getD_some]
  rw [Machine.exec_append, ← h]
  exact hnext.symm

theorem Traced.call (h : a.Traced mgr₀) {c : ConnsMgr.Call} (hfree : c.freed = none)
    (hc : a.call c = some a') : a'.Traced mgr₀ := by
  obtain ⟨r, hr, rfl⟩ := Option.map_eq_some_iff.mp hc
  refine ⟨exec_call h.mgr hr, ?_⟩
  rw [List.filterMap_append, List.filterMap_cons_none hfree, List.filterMap_nil, List.append_nil]
  exact h.freed

theorem Traced.freeFd (h : a.Traced mgr₀) {pass : FreePass} {fd : ℤ} {ref : RemoteRef}
    (hc : a.freeFd pass fd ref = some a') : a'.Traced mgr₀ := by
  unfold SlaveConns.freeFd SlaveConns.call at hc
  obtain ⟨r, hr, rfl⟩ := Option.map_eq_some_iff.mp hc
  refine ⟨exec_call h.mgr hr, ?_⟩
  show (a.calls ++ _).filterMap _ = (a.freed ++ [(fd, some ref)]).map Prod.fst
  rw [List.filterMap_append, List.map_append, h.freed]
  rfl

structure Frees (mgr₀ : ConnsMgr) (pairs : List CachedPair) (a a' : SlaveConns) : Prop where
  freed : a'.freed = a.freed ++ pairs
  traced : a.Traced mgr₀ → a'.Traced mgr₀
  mailbox : a'.mailbox = a.mailbox
  handed : a'.handed = a.handed

theorem freeConns_frees (passes : ℕ → FreePass) {pairs : List CachedPair}
    (hremotes : ∀ pair ∈ pairs, pair.2.isSome = true) (i : ℕ) (a : SlaveConns) :
    ∃ a', freeConns passes i (pairs.map some) a = some a' ∧ Frees mgr₀ pairs a a' := by
  induction pairs generalizing i a with
  | nil => exact ⟨a, rfl, (List.append_nil _).symm, id, rfl, rfl⟩
  | cons pair pairs ih =>
    obtain ⟨ref, href⟩ := Option.isSome_iff_exists.mp (hremotes _ List.mem_cons_self)
    have hcall : a.freeConn (passes i) (some pair) = a.freeFd (passes i) pair.1 ref := by
      simp only [freeConn, href, Option.bind_some]
    obtain ⟨a₁, hsome, hfreed, hmailbox, hhanded⟩ : ∃ a₁,
        a.freeFd (passes i) pair.1 ref = some a₁ ∧ a₁.freed = a.freed ++ [pair] ∧
          a₁.mailbox = a.mailbox ∧ a₁.handed = a.handed :=
      ⟨_, rfl, by rw [← href], rfl, rfl⟩
    obtain ⟨a', hrest, hfrees⟩ := ih (fun c hc => hremotes c (List.mem_cons_of_mem _ hc)) (i + 1) a₁
    refine ⟨a', by rw [List.map_cons, freeConns, hcall, hsome, Option.bind_some, hrest], ?_,
      fun h => hfrees.traced (h.freeFd hsome), hfrees.mailbox.trans hmailbox,
      hfrees.handed.trans hhanded⟩
    rw [hfrees.freed, hfreed, List.append_assoc]
    rfl

theorem handleMsgDestruct_eq (passes : ℕ → FreePass) (a : SlaveConns) (m : MsgDestruct)
    (heap : BigCaches) :
    a.handleMsgDestruct passes m heap = (m.reads heap).bind fun pairs =>
      (freeConns passes 0 pairs a).map (·, m.bigCache.elim heap heap.delete) := by
  unfold handleMsgDestruct MsgDestruct.reads
  cases m.bigCache with
  | none => rfl
  | some addr => simp only [Option.bind_map, Function.comp_def, Option.elim_some]

theorem handleMsgDestruct_frees (mgr₀ : ConnsMgr) (a : SlaveConns) (passes : ℕ → FreePass)
    {m : MsgDestruct} {heap : BigCaches} {cache : ServiceCache} (hcarries : m.Carries heap cache)
    (hremotes : ∀ e ∈ cache, e.remote.isSome = true) :
    ∃ order a', order.Perm cache ∧ Frees mgr₀ (ServiceCache.pairs order) a a' ∧
      a.handleMsgDestruct passes m heap = some (a', m.bigCache.elim heap heap.delete) := by
  obtain ⟨order, hperm, hreads⟩ := hcarries
  have hpairs : ∀ pair ∈ order.pairs, pair.2.isSome = true := by
    intro pair hpair
    obtain ⟨e, he, rfl⟩ := List.mem_map.mp hpair
    exact hremotes e (hperm.subset he)
  obtain ⟨a', hfree, hfrees⟩ := freeConns_frees passes hpairs 0 a
  exact ⟨order, a', hperm, hfrees, by
    rw [handleMsgDestruct_eq, hreads, Option.bind_some, hfree, Option.map_some]⟩

end SlaveConns

end Magneto
