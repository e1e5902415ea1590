import Magneto.HandOver

/-!
# No cached connection is lost

A message carries its cache from `BuildForDestruct` until the slave has handled it: in the array,
which it was copied with, or in a vector whose address nobody else holds. So a step keeps what
the other messages carry, and what a slave frees are the connections of the oldest cache that it
has not dealt with.
-/

namespace Magneto.HandOver

variable {mgrs : ℕ → ConnsMgr} {s : HandOver} {p i : ℕ} {b : ReqProcedure} {a : SlaveConns}
  {heap heap' : BigCaches} {mgr₀ : ConnsMgr}

theorem ProcedureOk.congr (h : ProcedureOk heap b)
    (hkept : b.phase = .sending → ∀ r ∈ b.tmpMsgDestruct.bigCache,
      heap'.vectors r = heap.vectors r) : ProcedureOk heap' b :=
  ⟨h.remotes, h.emptied, fun hb => (h.sending hb).congr (hkept hb)⟩

theorem SlaveOk.congr (h : SlaveOk heap mgr₀ a)
    (hkept : ∀ r ∈ a.mailbox.filterMap MsgDestruct.bigCache,
      heap'.vectors r = heap.vectors r) : SlaveOk heap' mgr₀ a := by
  refine ⟨h.traced, ?_, h.handed⟩
  obtain ⟨done, pending, hhanded, hfreed, hmails⟩ := h.lossless
  obtain ⟨hlen, hget⟩ := List.forall₂_iff_get.mp hmails
  refine ⟨done, pending, hhanded, hfreed, List.forall₂_iff_get.mpr ⟨hlen, fun j h₁ h₂ => ?_⟩⟩
  exact (hget j h₁ h₂).congr fun r hr =>
    hkept r (List.mem_filterMap.mpr ⟨_, List.get_mem _ _, hr⟩)

theorem held_sending (hp : (s.procedures p).phase = .sending) :
    s.held (.procedure p) = (s.procedures p).tmpMsgDestruct.bigCache.toList := if_pos hp

theorem held_of_ne_sending (hp : (s.procedures p).phase ≠ .sending) :
    s.held (.procedure p) = [] := if_neg hp

theorem held_setProcedure (s : HandOver) (b : ReqProcedure) {h : Holder}
    (hne : h ≠ .procedure p) : (s.setProcedure p b).held h = s.held h := by
  cases h with
  | procedure q =>
    have hq : q ≠ p := fun he => hne (congrArg Holder.procedure he)
    simp only [held, procedures_setProcedure, if_neg hq]
  | slave j => rfl

theorem held_setSlave (s : HandOver) (a : SlaveConns) {h : Holder} (hne : h ≠ .slave i) :
    (s.setSlave i a).held h = s.held h := by
  cases h with
  | procedure q => rfl
  | slave j =>
    have hj : j ≠ i := fun he => hne (congrArg Holder.slave he)
    simp only [held, slaves_setSlave, if_neg hj]

theorem held_setProcedure_self (s : HandOver) (b : ReqProcedure) :
    (s.setProcedure p b).held (.procedure p) =
      if b.phase = .sending then b.tmpMsgDestruct.bigCache.toList else [] := by
  simp only [held, procedures_setProcedure, if_pos]

theorem held_setSlave_self (s : HandOver) (a : SlaveConns) :
    (s.setSlave i a).held (.slave i) = a.mailbox.filterMap MsgDestruct.bigCache := by
  simp only [held, slaves_setSlave, if_pos]

theorem Inv.procedure_congr (h : s.Inv mgrs) {q : ℕ}
    (hkept : ∀ r ∈ s.held (.procedure q), heap.vectors r = s.heap.vectors r) :
    ProcedureOk heap (s.procedures q) :=
  (h.procedures q).congr fun hq r hr =>
    hkept r (held_sending hq ▸ Option.mem_toList.mpr hr)

theorem Inv.sound_of_held {s' : HandOver} (h : s.Inv mgrs) (hheld : ∀ h, s'.held h = s.held h)
    (hheap : s'.heap = s.heap) : s'.book.Sound none := by
  have hbook : s'.book = s.book := by rw [book, book, funext hheld, hheap]
  rw [hbook]
  exact h.sound

theorem Inv.setProcedure (h : s.Inv mgrs) (hbefore : (s.procedures p).phase ≠ .sending)
    (hafter : b.phase ≠ .sending) (hb : ProcedureOk s.heap b) :
    (s.setProcedure p b).Inv mgrs where
  safe := h.safe
  procedures := forall_setProcedure (fun q _ => h.procedures q) hb
  slaves := h.slaves
  heap := h.heap
  sound := by
    refine h.sound_of_held (fun holder => ?_) rfl
    by_cases hp : holder = .procedure p
    · rw [hp, held_setProcedure_self, if_neg hafter, held_of_ne_sending hbefore]
    · exact held_setProcedure s b hp

theorem Inv.sound_build (h : s.Inv mgrs) (hp : (s.procedures p).phase ≠ .sending) {addr : ℕ}
    (hfresh : ¬ s.book.IsOpen addr) {pairs : List CachedPair} (hb : b.phase = .sending)
    (hcases : b.tmpMsgDestruct.bigCache = none ∧ heap = s.heap ∨
      b.tmpMsgDestruct.bigCache = some addr ∧ heap = s.heap.new addr pairs) :
    ({ s.setProcedure p b with heap := heap } : HandOver).book.Sound none := by
  have hidle : s.held (.procedure p) = [] := held_of_ne_sending hp
  have hself : (s.setProcedure p b).held (.procedure p) = b.tmpMsgDestruct.bigCache.toList := by
    rw [held_setProcedure_self, if_pos hb]
  rcases hcases with ⟨hbig, rfl⟩ | ⟨hbig, rfl⟩
  · refine h.sound_of_held (fun holder => ?_) rfl
    by_cases hholder : holder = .procedure p
    · rw [hholder, hidle]
      exact hself.trans (by rw [hbig]; rfl)
    · exact held_setProcedure s b hholder
  · have hopen : (Ledger.mk s.held (s.heap.new addr pairs).news s.heap.deletes).Sound
        (some addr) := h.sound.open hfresh rfl rfl rfl
    refine hopen.give (h := .procedure p) (.of_eq ?_)
      (fun holder hholder => held_setProcedure s b hholder) rfl rfl
    have hgiven : b.tmpMsgDestruct.bigCache.toList = addr :: s.held (.procedure p) := by
      rw [hbig, hidle]
      rfl
    exact hself.trans hgiven

theorem inv_build (h : s.Inv mgrs) (hp : (s.procedures p).phase = .handling)
    {order : ServiceCache} (horder : order.Perm (s.procedures p).serviceCache) {addr : ℕ}
    (haddr : s.heap.vectors addr = none) (numAgents : ℕ) :
    (next numAgents s (.build p order addr)).Inv mgrs := by
  have hfresh : ¬ s.book.IsOpen addr := fun hopen => by
    have hsome := (h.heap.live addr).mp hopen
    rw [haddr] at hsome
    cases hsome
  have hcarries := MsgDestruct.buildForDestruct_carries (s.procedures p).tmpMsgDestruct
    (s.procedures p).client horder addr s.heap
  have hcases := MsgDestruct.buildForDestruct_cases (s.procedures p).tmpMsgDestruct
    (s.procedures p).client order addr s.heap
  simp only [next]
  generalize (s.procedures p).tmpMsgDestruct.buildForDestruct (s.procedures p).client order
    addr s.heap = r at hcarries hcases
  -- An address in use is not the one of the new vector.
  have hkept : ∀ holder, ∀ a ∈ s.held holder, r.2.vectors a = s.heap.vectors a := by
    intro holder a ha
    rcases hcases with ⟨-, heap⟩ | ⟨-, heap⟩
    · rw [heap]
    · rw [heap, BigCaches.vectors_new_of_ne]
      rintro rfl
      exact hfresh (h.sound.held_open a holder ha)
  refine ⟨h.safe, forall_setProcedure (C := ProcedureOk r.2)
    (fun q _ => h.procedure_congr (hkept (.procedure q)))
    ⟨(h.procedures p).remotes, ?_, fun _ => hcarries⟩,
    fun i => (h.slaves i).congr (hkept (.slave i)), ?_, ?_⟩
  · rintro (hb | hb) <;> cases hb
  · rcases hcases with ⟨-, heap⟩ | ⟨-, heap⟩
    · exact heap ▸ h.heap
    · exact heap ▸ h.heap.new addr order.pairs
  · have hbefore : (s.procedures p).phase ≠ .sending := by
      rw [hp]
      decide
    exact h.sound_build hbefore hfresh rfl hcases

theorem Inv.sound_send (h : s.Inv mgrs) (hp : (s.procedures p).phase = .sending)
    (hb : b.phase ≠ .sending)
    (ha : a.mailbox = (s.slaves i).mailbox ++ [(s.procedures p).tmpMsgDestruct]) :
    ((s.setProcedure p b).setSlave i a).book.Sound none := by
  have hbefore := held_sending hp
  have hidle : (s.setProcedure p b).held (.procedure p) = [] := by
    rw [held_setProcedure_self, if_neg hb]
  have hslave : ((s.setProcedure p b).setSlave i a).held (.slave i) =
      s.held (.slave i) ++ (s.procedures p).tmpMsgDestruct.bigCache.toList := by
    rw [held_setSlave_self, ha, List.filterMap_append]
    cases hbig : (s.procedures p).tmpMsgDestruct.bigCache <;> simp [held, hbig]
  cases hbig : (s.procedures p).tmpMsgDestruct.bigCache with
  | none =>
    rw [hbig] at hbefore hslave
    refine h.sound_of_held (fun holder => ?_) rfl
    by_cases hi : holder = .slave i
    · rw [hi, hslave]
      exact List.append_nil _
    · rw [held_setSlave _ a hi]
      by_cases hholder : holder = .procedure p
      · rw [hholder, hidle]
        exact hbefore.symm
      · exact held_setProcedure s b hholder
  | some addr =>
    rw [hbig] at hbefore hslave
    have htake : (s.setProcedure p b).book.Sound (some addr) := by
      refine h.sound.take (h := .procedure p) (.of_eq ?_)
        (fun holder hholder => held_setProcedure s b hholder) rfl rfl
      exact hbefore.trans (congrArg (addr :: ·) hidle.symm)
    refine htake.give (h := .slave i) ?_ (fun holder hi => held_setSlave _ a hi) rfl rfl
    exact (List.Perm.of_eq hslave).trans (List.perm_append_singleton addr _)

theorem inv_send (h : s.Inv mgrs) (hp : (s.procedures p).phase = .sending) {numAgents : ℕ}
    (hagents : 0 < numAgents) (accepted : Bool) : (s.send numAgents p accepted).Inv mgrs := by
  unfold send
  rw [if_neg hagents.ne']
  cases accepted with
  | false => exact h
  | true =>
    simp only [if_true]
    generalize (s.procedures p).client.idProcedure % numAgents = i
    have hproc := h.procedures p
    obtain ⟨done, pending, hhanded, hfreed, hmails⟩ := (h.slaves i).lossless
    refine ⟨h.safe, forall_setProcedure (C := ProcedureOk s.heap) (fun q _ => h.procedures q)
      ⟨hproc.remotes, ?_, ?_⟩, forall_setSlave (C := fun j => SlaveOk s.heap (mgrs j))
      (fun j _ => h.slaves j) ⟨(h.slaves i).traced.congr rfl rfl rfl, ?_, ?_⟩, h.heap,
      h.sound_send hp (fun hb => by cases hb) rfl⟩
    · rintro (hb | hb) <;> cases hb
    · intro hb
      cases hb
    · refine ⟨done, pending ++ [(s.procedures p).serviceCache], ?_, hfreed, ?_⟩
      · rw [hhanded, List.append_assoc]
      · exact List.rel_append hmails (.cons (hproc.sending hp) .nil)
    · intro cache hcache
      rcases List.mem_append.mp hcache with hcache | hcache
      · exact (h.slaves i).handed cache hcache
      · rw [List.mem_singleton.mp hcache]
        exact hproc.remotes

theorem inv_call (h : s.Inv mgrs) {c : ConnsMgr.Call} (hc : c.freed = none)
    (hcall : (s.slaves i).call c = some a) : (s.setSlave i a).Inv mgrs := by
  have htraced := (h.slaves i).traced.call hc hcall
  obtain ⟨r, -, rfl⟩ := Option.map_eq_some_iff.mp hcall
  obtain ⟨done, pending, hhanded, hfreed, hmails⟩ := (h.slaves i).lossless
  refine ⟨h.safe, h.procedures, forall_setSlave (C := fun j => SlaveOk s.heap (mgrs j))
    (fun j _ => h.slaves j) ⟨htraced, ⟨done, pending, hhanded, hfreed, hmails⟩,
    (h.slaves i).handed⟩, h.heap, h.sound_of_held (fun holder => ?_) rfl⟩
  by_cases hi : holder = .slave i
  · rw [hi, held_setSlave_self]
    rfl
  · exact held_setSlave s _ hi

theorem Inv.sound_receive (h : s.Inv mgrs) {m : MsgDestruct} {mails : List MsgDestruct}
    (hmail : (s.slaves i).mailbox = m :: mails) (ha : a.mailbox = mails) :
    ({ s.setSlave i a with heap := m.bigCache.elim s.heap s.heap.delete } :
      HandOver).book.Sound none := by
  have hslave : (s.setSlave i a).held (.slave i) = mails.filterMap MsgDestruct.bigCache := by
    rw [held_setSlave_self, ha]
  have hbefore : s.held (.slave i) = (m :: mails).filterMap MsgDestruct.bigCache := by
    rw [held, hmail]
  cases hbig : m.bigCache with
  | none =>
    rw [List.filterMap_cons_none hbig] at hbefore
    refine h.sound_of_held (fun holder => ?_) rfl
    by_cases hi : holder = .slave i
    · rw [hi, hbefore]
      exact hslave
    · exact held_setSlave s a hi
  | some addr =>
    rw [List.filterMap_cons_some hbig] at hbefore
    have htake : (s.setSlave i a).book.Sound (some addr) := by
      refine h.sound.take (h := .slave i) (.of_eq ?_) (fun holder hi => held_setSlave s a hi)
        rfl rfl
      exact hbefore.trans (congrArg (addr :: ·) hslave.symm)
    exact htake.close rfl rfl rfl

theorem SlaveOk.handled {m : MsgDestruct} {mails : List MsgDestruct} (h : SlaveOk heap mgr₀ a)
    (hmail : a.mailbox = m :: mails) (passes : ℕ → FreePass) :
    ∃ a', { a with mailbox := mails }.handleMsgDestruct passes m heap =
        some (a', m.bigCache.elim heap heap.delete) ∧
      a'.mailbox = mails ∧ SlaveOk heap mgr₀ a' := by
  obtain ⟨done, pending, hhanded, hfreed, hcarried⟩ := h.lossless
  rw [hmail] at hcarried
  obtain ⟨cache, rest, hcarries, hrest, rfl⟩ := List.forall₂_cons_left_iff.mp hcarried
  have hremotes : ReqProcedure.Remotes cache :=
    h.handed cache (hhanded ▸ List.mem_append_right _ List.mem_cons_self)
  obtain ⟨order, a', hperm, hfrees, hhandle⟩ := SlaveConns.handleMsgDestruct_frees mgr₀
    { a with mailbox := mails } passes hcarries hremotes
  refine ⟨a', hhandle, hfrees.mailbox, hfrees.traced (h.traced.congr rfl rfl rfl),
    ⟨done ++ [cache], rest, ?_, ?_, ?_⟩, ?_⟩
  · rw [hfrees.handed, List.append_assoc]
    exact hhanded
  · rw [hfrees.freed, List.flatMap_append, List.flatMap_singleton]
    exact hfreed.append (hperm.map _)
  · rw [hfrees.mailbox]
    exact hrest
  · rw [hfrees.handed]
    exact h.handed

theorem Inv.vectors_receive (h : s.Inv mgrs) {m : MsgDestruct} {mails : List MsgDestruct}
    (hmail : (s.slaves i).mailbox = m :: mails) {r : ℕ}
    (hr : r ∈ mails.filterMap MsgDestruct.bigCache ∨ ∃ holder, holder ≠ .slave i ∧
      r ∈ s.held holder) :
    (m.bigCache.elim s.heap s.heap.delete).vectors r = s.heap.vectors r := by
  have hheld : s.held (.slave i) = (m :: mails).filterMap MsgDestruct.bigCache := by
    rw [held, hmail]
  cases hbig : m.bigCache with
  | none => rfl
  | some addr =>
    rw [List.filterMap_cons_some hbig] at hheld
    refine BigCaches.vectors_delete_of_ne ?_
    rintro rfl
    rcases hr with hr | ⟨holder, hne, hr⟩
    · have hnodup : (s.held (.slave i)).Nodup := h.sound.nodup (.slave i)
      rw [hheld] at hnodup
      exact (List.nodup_cons.mp hnodup).1 hr
    · have hmem : r ∈ s.held (.slave i) := by
        rw [hheld]
        exact List.mem_cons_self
      exact hne (h.sound.exclusive r holder (.slave i) hr hmem)

theorem inv_receive (h : s.Inv mgrs) (hmails : (s.slaves i).mailbox ≠ []) (passes : ℕ → FreePass) :
    (s.receive i passes).Inv mgrs := by
  obtain ⟨m, mails, hmail⟩ := List.exists_cons_of_ne_nil hmails
  obtain ⟨a, hhandle, hmailbox, hslave⟩ := (h.slaves i).handled hmail passes
  have hkept : ∀ holder, holder ≠ .slave i → ∀ r ∈ s.held holder,
      (m.bigCache.elim s.heap s.heap.delete).vectors r = s.heap.vectors r :=
    fun holder hne r hr => h.vectors_receive hmail (.inr ⟨holder, hne, hr⟩)
  simp only [receive, hmail, hhandle, Option.elim_some]
  refine ⟨h.safe, fun q => h.procedure_congr (hkept (.procedure q) (by simp)),
    forall_setSlave (C := fun j => SlaveOk _ (mgrs j)) (fun j hj => ?_) ?_, ?_,
    h.sound_receive hmail hmailbox⟩
  · exact (h.slaves j).congr (hkept (.slave j) fun he => hj (Holder.slave.inj he))
  · refine hslave.congr fun r hr => h.vectors_receive hmail (.inl ?_)
    rwa [hmailbox] at hr
  · cases m.bigCache with
    | none => exact h.heap
    | some addr => exact h.heap.delete addr

theorem inv_step {numAgents : ℕ} (hagents : 0 < numAgents) (s : HandOver) (l : Label)
    (h : s.Inv mgrs) (hl : s.Enabled l) : (next numAgents s l).Inv mgrs := by
  cases l with
  | start p client =>
    have hp : (s.procedures p).phase = .pooled := hl
    refine h.setProcedure (by rw [hp]; decide) (fun hb => by cases hb)
      ⟨(h.procedures p).remotes, ?_, fun hb => by cases hb⟩
    rintro (hb | hb) <;> cases hb
  | act p x =>
    have hp : (s.procedures p).phase = .handling := hl
    have hact : ((s.procedures p).act x).phase = .handling :=
      ((s.procedures p).phase_act x).trans hp
    refine h.setProcedure (by rw [hp]; decide) (by rw [hact]; decide)
      ⟨(h.procedures p).remotes.act x, ?_, ?_⟩
    · rw [hact]
      rintro (hb | hb) <;> cases hb
    · rw [hact]
      intro hb
      cases hb
  | build p order addr => exact inv_build h hl.1 hl.2.1 hl.2.2 numAgents
  | send p accepted => exact inv_send h hl hagents accepted
  | clear p =>
    have hp : (s.procedures p).phase = .sent := hl
    exact h.setProcedure (by rw [hp]; decide) (fun hb => by cases hb)
      ⟨fun e he => absurd he List.not_mem_nil, fun _ => rfl, fun hb => by cases hb⟩
  | recycle p =>
    have hp : (s.procedures p).phase = .cleared := hl
    exact h.setProcedure (by rw [hp]; decide) (fun hb => by cases hb)
      ⟨(h.procedures p).remotes, fun _ => (h.procedures p).emptied (.inr hp),
        fun hb => by cases hb⟩
  | call i c =>
    obtain ⟨hc, hcall⟩ := hl
    obtain ⟨r, hr⟩ := Option.isSome_iff_exists.mp hcall
    have hsome : (s.slaves i).call c =
        some { s.slaves i with mgr := r.2, calls := (s.slaves i).calls ++ [c] } := by
      rw [SlaveConns.call, hr, Option.map_some]
    simp only [next, hsome, Option.elim_some]
    exact inv_call h hc hsome
  | receive i passes => exact inv_receive h hl passes

/-- In every run from procedures whose messages hold anything, with any interleaving of the
procedures and the slaves: nothing is read, deleted or freed that is not there, a procedure
that may be used again has an empty cache, and each slave has called `FreeFd` once for every
cached connection of the messages it handled and for nothing else, while the messages it did
not handle yet carry the rest. -/
theorem handOver_lossless {numAgents : ℕ} (hagents : 0 < numAgents) (clients : ℕ → ClientReq)
    (msgs : ℕ → MsgDestruct) (mgrs : ℕ → ConnsMgr) (ls : List Label)
    (hrun : (machine numAgents).Admits (init clients msgs mgrs) ls) :
    let s := (machine numAgents).exec (init clients msgs mgrs) ls
    s.fault = false ∧
      (∀ p, (s.procedures p).phase = .pooled → (s.procedures p).serviceCache = []) ∧
      ∀ i, (s.slaves i).Traced (mgrs i) ∧ Lossless s.heap (s.slaves i) := by
  have h := (machine numAgents).invariant (fun s l => inv_step hagents s l)
    (inv_init clients msgs mgrs) hrun
  exact ⟨h.safe, fun p hp => (h.procedures p).emptied (.inl hp),
    fun i => ⟨(h.slaves i).traced, (h.slaves i).lossless⟩⟩

def serviceNo (no : ℕ) : Service := ⟨no, "svc", .kRapid, .kWeight, [ConnsMgr.remoteAt no], 1, 0⟩

def passesAt (now : ℤ) : ℕ → FreePass := fun _ => ⟨now, ConnsMgr.remoteAt 0⟩

def garbage : MsgDestruct :=
  ⟨⟨0, 0, 0, ⟨0, .kRapid, ()⟩⟩, .ofList (List.replicate 15 (0, none)), 77, some 9, rfl, rfl⟩

def requestOf (n addr : ℕ) : List Label :=
  .start 0 ⟨1, 7, 100, ⟨0, .kRapid, ()⟩⟩ ::
    (List.range n).map (fun k =>
      .act 0 (.insertFd (serviceNo k) (k + 10) (.elem (serviceNo k) 0) none)) ++
    [.build 0 ((List.range n).map fun k => ⟨k, k + 10, some (.elem (serviceNo k) 0), none⟩) addr,
      .send 0 false, .send 0 true, .clear 0, .recycle 0]

/-- The vector of the first request is still on its way when the array is used, and its address
is given out again when it was deleted. -/
def reusedRun : List Label :=
  requestOf 16 4 ++ requestOf 2 5 ++ [.receive 0 (passesAt 0), .receive 0 (passesAt 1)] ++
    requestOf 16 4 ++ [.receive 0 (passesAt 2)]

theorem handOver_lossless_reusedRun :
    let s := (machine 1).exec (init (fun _ => garbage.client) (fun _ => garbage)
      fun _ => .new 10) reusedRun
    (s.slaves 0).freed.length = 34 ∧ (s.slaves 0).mailbox = [] ∧ s.fault = false ∧
      (∀ p, (s.procedures p).phase = .pooled → (s.procedures p).serviceCache = []) ∧
      ∀ i, (s.slaves i).Traced (.new 10) ∧ Lossless s.heap (s.slaves i) :=
  ⟨by decide, by decide, handOver_lossless (by decide) _ _ _ reusedRun (by decide)⟩

end Magneto.HandOver
