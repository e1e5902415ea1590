import Magneto.ServerInv
import Mathlib.Algebra.BigOperators.Group.Finset.Piecewise

/-!
# The limit of client connections

`ClientsNotFull` adds up the counters of the slaves, and a counter goes up only
when its slave takes the `MsgReadReq` out of its mailbox. The clients that are
open are therefore bounded by the counters plus the `MsgReadReq` that still wait,
a number that no step but an accepted connection increases; the limit holds in
every run whose connections are accepted below it in this sense.
-/

namespace Magneto

def ClientReq.openFd (c : ClientReq) : ℕ := if 0 < c.fdClient then 1 else 0

def SlaveMsg.openFds : SlaveMsg → ℕ
  | .readReq _ => 1
  | .destruct c => c.openFd
  | .session _ _ => 0

def SchedulerMsg.openFds : SchedulerMsg → ℕ
  | .newReq c => c.openFd
  | .session _ => 0

def SlaveThread.openFds (a : SlaveThread) : ℕ :=
  a.clients.length + (a.mailbox.map SlaveMsg.openFds).sum

def SchedulerThread.openFds (t : SchedulerThread) : ℕ :=
  (t.mailbox.map SchedulerMsg.openFds).sum + (t.taskQueue.map SchedulerMsg.openFds).sum +
    (t.procedures.map fun q => q.elim 0 ClientReq.openFd).sum

def SlaveMsg.isReadReq : SlaveMsg → Bool
  | .readReq _ => true
  | _ => false

def SlaveThread.waiting (a : SlaveThread) : ℕ := a.mailbox.countP SlaveMsg.isReadReq

def SlaveThread.load (a : SlaveThread) : ℤ := a.numClientsKeepalive + a.waiting

theorem SlaveMsg.openFds_le (mails : List SlaveMsg) :
    (mails.map SlaveMsg.openFds).sum ≤
      (mails.flatMap SlaveMsg.reads).length + mails.countP SlaveMsg.isReadReq := by
  induction mails with
  | nil => simp
  | cons m mails ih =>
    rw [List.map_cons, List.sum_cons, List.flatMap_cons, List.length_append, List.countP_cons]
    cases m with
    | session p noFd => simpa [openFds, reads, isReadReq] using ih
    | readReq m =>
      simp only [openFds, reads, isReadReq, List.length_nil, if_pos]
      omega
    | destruct c =>
      simp only [openFds, ClientReq.openFd, reads, isReadReq, List.length_singleton]
      split_ifs <;> omega

theorem SchedulerMsg.openFds_le (mails : List SchedulerMsg) :
    (mails.map SchedulerMsg.openFds).sum ≤ (mails.flatMap SchedulerMsg.reads).length := by
  induction mails with
  | nil => simp
  | cons m mails ih =>
    rw [List.map_cons, List.sum_cons, List.flatMap_cons, List.length_append]
    cases m with
    | session p => simpa [openFds, reads] using ih
    | newReq c =>
      simp only [openFds, ClientReq.openFd, reads, List.length_singleton]
      split_ifs <;> omega

theorem ClientReq.openFds_le (procedures : List (Option ClientReq)) :
    (procedures.map fun q => q.elim 0 ClientReq.openFd).sum ≤
      (procedures.flatMap ClientReq.reads).length := by
  induction procedures with
  | nil => simp
  | cons q procedures ih =>
    rw [List.map_cons, List.sum_cons, List.flatMap_cons, List.length_append]
    cases q with
    | none => simpa [reads] using ih
    | some c =>
      simp only [Option.elim_some, openFd, reads, List.length_singleton]
      split_ifs <;> omega

theorem SlaveThread.openFds_le (a : SlaveThread) : a.openFds ≤ a.held.length + a.waiting := by
  have h := SlaveMsg.openFds_le a.mailbox
  rw [openFds, held, waiting, List.length_append, List.length_map]
  omega

theorem SchedulerThread.openFds_le (t : SchedulerThread) : t.openFds ≤ t.held.length := by
  have h₁ := SchedulerMsg.openFds_le t.mailbox
  have h₂ := SchedulerMsg.openFds_le t.taskQueue
  have h₃ := ClientReq.openFds_le t.procedures
  rw [openFds, held, List.length_append, List.length_append]
  omega

namespace Server

variable {s s' : Server} {conf : ServerConf}

def openClients (s : Server) : ℕ :=
  (s.slaves.map SlaveThread.openFds).sum + (s.schedulers.map SchedulerThread.openFds).sum

/-- What `ClientsNotFull` compares with the limit. -/
def counted (s : Server) : ℤ := (s.slaves.map SlaveThread.numClientsKeepalive).sum

def waiting (s : Server) : ℕ := (s.slaves.map SlaveThread.waiting).sum

def load (s : Server) : ℤ := (s.slaves.map SlaveThread.load).sum

theorem load_eq (s : Server) : s.load = s.counted + s.waiting := by
  unfold load counted waiting
  induction s.slaves with
  | nil => simp
  | cons a slaves ih =>
    simp only [List.map_cons, List.sum_cons, ih, SlaveThread.load, Nat.cast_add]
    omega

theorem openClients_le (s : Server) : s.openClients ≤ s.held.length + s.waiting := by
  have hslaves : ∀ slaves : List SlaveThread, (slaves.map SlaveThread.openFds).sum ≤
      (slaves.flatMap SlaveThread.held).length + (slaves.map SlaveThread.waiting).sum := by
    intro slaves
    induction slaves with
    | nil => simp
    | cons a slaves ih =>
      have ha := a.openFds_le
      simp only [List.map_cons, List.sum_cons, List.flatMap_cons, List.length_append]
      omega
  have hschedulers : ∀ schedulers : List SchedulerThread,
      (schedulers.map SchedulerThread.openFds).sum ≤
        (schedulers.flatMap SchedulerThread.held).length := by
    intro schedulers
    induction schedulers with
    | nil => simp
    | cons t schedulers ih =>
      have ht := t.openFds_le
      simp only [List.map_cons, List.sum_cons, List.flatMap_cons, List.length_append]
      omega
  have h₁ := hslaves s.slaves
  have h₂ := hschedulers s.schedulers
  rw [openClients, held, waiting, List.length_append]
  omega

theorem sum_readsOf {n : ℕ} (hn : 0 < n) (reads : List HeldRead) :
    ∑ i ∈ Finset.range n, ((readsOf n i reads).length : ℤ) = reads.length := by
  induction reads with
  | nil => simp [readsOf]
  | cons r reads ih =>
    have hlen : ∀ i, ((readsOf n i (r :: reads)).length : ℤ) =
        (readsOf n i reads).length + if r.idProcedure % n = i then 1 else 0 := by
      intro i
      unfold readsOf
      rw [List.filter_cons]
      by_cases h : r.idProcedure % n = i
      · simp [h]
      · simp [h]
    simp only [hlen, Finset.sum_add_distrib, ih, Finset.sum_ite_eq, Finset.mem_range,
      Nat.mod_lt _ hn, if_true, List.length_cons, Nat.cast_add, Nat.cast_one]

theorem Inv.counted_eq (h : Inv [] s) (hn : 0 < s.slaves.length) :
    s.counted = s.held.length := by
  have hmap : s.slaves.map SlaveThread.numClientsKeepalive =
      (List.range s.slaves.length).map
        fun i => ((readsOf s.slaves.length i s.held).length : ℤ) := by
    refine List.ext_getElem (by simp) fun i h₁ h₂ => ?_
    have hi : i < s.slaves.length := by simpa using h₁
    have hacc := (h.accounted i s.slaves[i] (List.getElem?_eq_getElem hi)).counter
    simpa using hacc
  have hsum := sum_readsOf hn s.held
  rw [counted, hmap, ← hsum]
  rfl

theorem load_setSlave {i : ℕ} {a : SlaveThread} (h : s.slaves[i]? = some a) (a' : SlaveThread) :
    (s.setSlave i a').load + a.load = s.load + a'.load := by
  obtain ⟨l₁, l₂, heq, rfl⟩ := List.exists_append_of_getElem? h
  simp only [load, setSlave, heq, List.set_append_right _ _ le_rfl, Nat.sub_self,
    List.set_cons_zero, List.map_append, List.map_cons, List.sum_append, List.sum_cons]
  omega

theorem load_setSlave_le {i : ℕ} {a a' : SlaveThread} (h : s.slaves[i]? = some a)
    (hle : a'.load ≤ a.load) : (s.setSlave i a').load ≤ s.load := by
  have := load_setSlave h a'
  omega

theorem load_setScheduler (s : Server) (k : ℕ) (t : SchedulerThread) :
    (s.setScheduler k t).load = s.load := rfl

theorem load_sendToScheduler {k : ℕ} {m : SchedulerMsg}
    (h : s.sendToScheduler conf k m = some s') : s'.load = s.load := by
  obtain ⟨t, -, h⟩ := Option.bind_eq_some_iff.mp h
  split_ifs at h
  obtain rfl := Option.some.inj h
  rfl

theorem load_sendToSlave {id : ℕ} {m : SlaveMsg} (h : s.sendToSlave conf id m = some s') :
    s'.load = s.load + if m.isReadReq then 1 else 0 := by
  obtain ⟨a, hget, h⟩ := Option.bind_eq_some_iff.mp h
  split_ifs at h
  obtain rfl := Option.some.inj h
  have hset := load_setSlave hget { a with mailbox := a.mailbox ++ [m] }
  have hload : ({ a with mailbox := a.mailbox ++ [m] } : SlaveThread).load =
      a.load + if m.isReadReq then 1 else 0 := by
    simp only [SlaveThread.load, SlaveThread.waiting, List.countP_append, List.countP_singleton,
      Nat.cast_add]
    split_ifs <;> omega
  omega

theorem load_tail_le (a : SlaveThread) :
    ({ a with mailbox := a.mailbox.tail } : SlaveThread).load ≤ a.load := by
  have hsub : a.mailbox.tail.countP SlaveMsg.isReadReq ≤ a.mailbox.countP SlaveMsg.isReadReq :=
    (List.tail_sublist _).countP_le
  simp only [SlaveThread.load, SlaveThread.waiting]
  omega

theorem load_sendBackMsg_le {i : ℕ} {a b : SlaveThread} (hget : s.slaves[i]? = some b)
    (hle : a.load ≤ b.load) (p : ProcedureRef) (mail : Bool) :
    (s.sendBackMsg conf i a p mail).load ≤ s.load := by
  unfold sendBackMsg
  dsimp only
  split
  · next s' hs =>
    rw [load_sendToScheduler hs]
    refine load_setSlave_le hget ?_
    cases mail with
    | false => exact hle
    | true => exact (load_tail_le a).trans hle
  · exact load_setSlave_le hget hle

theorem load_releaseClient (a : SlaveThread) (c : ClientReq) :
    (a.releaseClient c).load = a.load - 1 := by
  simp only [SlaveThread.load, SlaveThread.waiting, SlaveThread.releaseClient,
    SlaveThread.closeFdClient, SlaveThread.freeRead]
  omega

theorem load_regClient_le (env : ClientEnv) (a : SlaveThread) (c : ClientReq) (timeleftMs : ℤ) :
    (SlaveThread.regClient env a c timeleftMs).load ≤ a.load := by
  unfold SlaveThread.regClient
  split_ifs
  · exact le_rfl
  · rw [load_releaseClient]
    omega

theorem load_slaveMail_le {i : ℕ} {a : SlaveThread} (hget : s.slaves[i]? = some a)
    (env : ClientEnv) : (s.slaveMail conf env i a).load ≤ s.load := by
  unfold slaveMail
  split
  · next m mails hm =>
    refine load_setSlave_le hget ((load_regClient_le _ _ _ _).trans ?_)
    simp only [SlaveThread.load, SlaveThread.waiting, hm, List.countP_cons, SlaveMsg.isReadReq,
      if_true, Nat.cast_add, Nat.cast_one]
    omega
  · next d mails hm =>
    have hpop : ({ a with mailbox := mails } : SlaveThread).load = a.load := by
      simp [SlaveThread.load, SlaveThread.waiting, hm, SlaveMsg.isReadReq]
    refine load_setSlave_le hget (le_trans ?_ hpop.le)
    unfold SlaveThread.handleMsgDestruct
    dsimp only
    split_ifs
    · exact (load_releaseClient { a with mailbox := mails } d).trans_le (by omega)
    · rw [load_releaseClient]
      omega
    · exact load_regClient_le _ _ _ _
  · next p noFd mails hm =>
    split_ifs
    · refine load_setSlave_le hget ?_
      simp [SlaveThread.load, SlaveThread.waiting, hm, SlaveMsg.isReadReq]
    · refine load_setSlave_le hget ?_
      simp [SlaveThread.load, SlaveThread.waiting, hm, SlaveMsg.isReadReq]
    · exact load_sendBackMsg_le hget le_rfl p true
  · exact le_rfl

theorem load_takeClient {a a' : SlaveThread} {fd : ℤ} {ctx : ReadReqCtx}
    (h : a.takeClient fd = some (ctx, a')) : a'.load = a.load := by
  obtain ⟨c, -, he⟩ := Option.map_eq_some_iff.mp h
  simp only [Prod.mk.injEq] at he
  obtain ⟨rfl, rfl⟩ := he
  rfl

theorem load_slaveRead_le {i : ℕ} {a a' : SlaveThread} (hget : s.slaves[i]? = some a)
    (hle : a'.load ≤ a.load) (env : ClientEnv) (event : EventsDriver.Event) (ctx : ReadReqCtx) :
    (s.slaveRead conf env event i ctx a').load ≤ s.load := by
  have hrelease : ∀ c, (s.setSlave i (a'.releaseClient c)).load ≤ s.load := by
    intro c
    refine load_setSlave_le hget ?_
    rw [load_releaseClient]
    omega
  unfold slaveRead
  dsimp only
  split_ifs
  · split
    · next s' hs =>
      rw [sendToOneWorker] at hs
      rw [load_sendToScheduler hs]
      exact load_setSlave_le hget hle
    · exact hrelease _
  · exact load_setSlave_le hget hle
  · exact hrelease _
  · exact hrelease _

theorem load_sendDestruct (k : ℕ) (t : SchedulerThread) (j : ℕ) (c : ClientReq) :
    (s.sendDestruct conf k t j c).load = s.load := by
  unfold sendDestruct
  split
  · next s' hs =>
    rw [load_sendToSlave hs, load_setScheduler]
    simp only [SlaveMsg.isReadReq, Bool.false_eq_true, if_false, add_zero]
  · rw [load_setScheduler]

/-- Only an accepted connection increases the load, by one. -/
theorem load_next {l : Label} (hl : s.Enabled l) :
    (s.next conf l).load ≤ s.load ∨
      (∃ m, l = .accept m) ∧ s.clientsNotFull conf = true ∧ (s.next conf l).load = s.load + 1 := by
  have hcase : NextCase conf s l (s.next conf l) := next_cases hl
  generalize hs₁ : s.next conf l = s₁ at hcase ⊢
  cases hcase with
  | refused l => exact .inl le_rfl
  | @accept m s' hs =>
    by_cases hfull : s.clientsNotFull conf = true
    · refine .inr ⟨⟨m, rfl⟩, hfull, ?_⟩
      rw [load_sendToSlave hs]
      simp only [SlaveMsg.isReadReq, if_pos]
    · rw [next, if_neg hfull] at hs₁
      exact .inl (hs₁ ▸ le_rfl)
  | slaveMail hget _ => exact .inl (load_slaveMail_le hget _)
  | slaveRead hget ht => exact .inl (load_slaveRead_le hget (load_takeClient ht).le _ _ _)
  | @slaveTimeout i fd a ctx a' hget ht =>
    refine .inl (load_setSlave_le hget ?_)
    rw [load_releaseClient, load_takeClient ht]
    omega
  | @slaveSessionEnd i p a hget =>
    have hload : ({ a with sessions := a.sessions.erase p } : SlaveThread).load = a.load := rfl
    exact .inl (load_sendBackMsg_le hget hload.le p false)
  | slaveResend hget _ => exact .inl (load_sendBackMsg_le hget le_rfl _ _)
  | schedulerReceive _ _ => exact .inl (load_setScheduler _ _ _).le
  | schedulerTask _ _ => exact .inl (load_setScheduler _ _ _).le
  | schedulerOp _ _ _ hsend =>
    rw [load_sendToSlave hsend, load_setScheduler]
    simp only [SlaveMsg.isReadReq, Bool.false_eq_true, if_false, add_zero]
    exact .inl le_rfl
  | schedulerEnd _ _ => exact .inl (load_sendDestruct _ _ _ _).le
  | schedulerResend _ _ _ => exact .inl (load_sendDestruct _ _ _ _).le

theorem length_sendToSlave {id : ℕ} {m : SlaveMsg} (h : s.sendToSlave conf id m = some s') :
    s'.slaves.length = s.slaves.length := by
  obtain ⟨a, -, h⟩ := Option.bind_eq_some_iff.mp h
  split_ifs at h
  obtain rfl := Option.some.inj h
  exact setSlave_length _ _ _

theorem length_sendToScheduler {k : ℕ} {m : SchedulerMsg}
    (h : s.sendToScheduler conf k m = some s') : s'.slaves.length = s.slaves.length := by
  obtain ⟨t, -, h⟩ := Option.bind_eq_some_iff.mp h
  split_ifs at h
  obtain rfl := Option.some.inj h
  rfl

theorem length_sendBackMsg (i : ℕ) (a : SlaveThread) (p : ProcedureRef) (mail : Bool) :
    (s.sendBackMsg conf i a p mail).slaves.length = s.slaves.length := by
  unfold sendBackMsg
  dsimp only
  split
  · next s' hs => rw [length_sendToScheduler hs, setSlave_length]
  · exact setSlave_length _ _ _

theorem length_sendDestruct (k : ℕ) (t : SchedulerThread) (j : ℕ) (c : ClientReq) :
    (s.sendDestruct conf k t j c).slaves.length = s.slaves.length := by
  unfold sendDestruct
  split
  · next s' hs => rw [length_sendToSlave hs, setScheduler]
  · rfl

theorem length_slaveMail (i : ℕ) (a : SlaveThread) (env : ClientEnv) :
    (s.slaveMail conf env i a).slaves.length = s.slaves.length := by
  unfold slaveMail
  split
  · exact setSlave_length _ _ _
  · exact setSlave_length _ _ _
  · split_ifs
    · exact setSlave_length _ _ _
    · exact setSlave_length _ _ _
    · exact length_sendBackMsg _ _ _ _
  · rfl

theorem length_slaveRead (i : ℕ) (a : SlaveThread) (env : ClientEnv)
    (event : EventsDriver.Event) (ctx : ReadReqCtx) :
    (s.slaveRead conf env event i ctx a).slaves.length = s.slaves.length := by
  unfold slaveRead
  dsimp only
  split_ifs
  · split
    · next s' hs =>
      rw [sendToOneWorker] at hs
      rw [length_sendToScheduler hs, setSlave_length]
    · exact setSlave_length _ _ _
  · exact setSlave_length _ _ _
  · exact setSlave_length _ _ _
  · exact setSlave_length _ _ _

theorem length_next {l : Label} (hl : s.Enabled l) :
    (s.next conf l).slaves.length = s.slaves.length := by
  have hcase : NextCase conf s l (s.next conf l) := next_cases hl
  generalize s.next conf l = s₁ at hcase ⊢
  cases hcase with
  | refused l => rfl
  | accept hs => exact length_sendToSlave hs
  | slaveMail _ _ => exact length_slaveMail _ _ _
  | slaveRead _ _ => exact length_slaveRead _ _ _ _ _
  | slaveTimeout _ _ => exact setSlave_length _ _ _
  | slaveSessionEnd _ => exact length_sendBackMsg _ _ _ _
  | slaveResend _ _ => exact length_sendBackMsg _ _ _ _
  | schedulerReceive _ _ => rfl
  | schedulerTask _ _ => rfl
  | schedulerOp _ _ _ hsend => rw [length_sendToSlave hsend, setScheduler]
  | schedulerEnd _ _ => exact length_sendDestruct _ _ _ _
  | schedulerResend _ _ _ => exact length_sendDestruct _ _ _ _

/-- A connection that `ClientsNotFull` lets through comes at a time when the
clients that are counted or still wait in a mailbox are below the bound. -/
def AcceptsBelow (bound : ℤ) (conf : ServerConf) (s : Server) : Label → Prop
  | .accept _ => s.clientsNotFull conf = true → s.counted + s.waiting < bound
  | _ => True

instance (bound : ℤ) (conf : ServerConf) (s : Server) :
    ∀ l, Decidable (s.AcceptsBelow bound conf l)
  | .accept _ => inferInstanceAs (Decidable (_ → _))
  | .slaveMail _ _ => inferInstanceAs (Decidable True)
  | .slaveRead _ _ _ _ => inferInstanceAs (Decidable True)
  | .slaveTimeout _ _ => inferInstanceAs (Decidable True)
  | .slaveSessionEnd _ _ => inferInstanceAs (Decidable True)
  | .slaveResend _ => inferInstanceAs (Decidable True)
  | .schedulerReceive _ => inferInstanceAs (Decidable True)
  | .schedulerTask _ _ => inferInstanceAs (Decidable True)
  | .schedulerOp _ _ => inferInstanceAs (Decidable True)
  | .schedulerEnd _ => inferInstanceAs (Decidable True)
  | .schedulerResend _ => inferInstanceAs (Decidable True)

theorem load_next_le {bound : ℤ} {l : Label} (hload : s.load ≤ bound) (hl : s.Enabled l)
    (hin : s.AcceptsBelow bound conf l) : (s.next conf l).load ≤ bound := by
  have hnext : (s.next conf l).load ≤ s.load ∨ (∃ m, l = .accept m) ∧
      s.clientsNotFull conf = true ∧ (s.next conf l).load = s.load + 1 := load_next hl
  rcases hnext with hle | ⟨⟨m, rfl⟩, hfull, hload⟩
  · exact hle.trans hload
  · have hlt : s.counted + s.waiting < bound := hin hfull
    rw [← load_eq] at hlt
    omega

structure Limited (bound : ℤ) (s : Server) : Prop where
  inv : Inv [] s
  slaves : 0 < s.slaves.length
  load : s.load ≤ bound

theorem limited_next {bound : ℤ} {l : Label} (h : Limited bound s) (hl : s.Enabled l)
    (hin : s.AcceptsBelow bound conf l) : Limited bound (s.next conf l) :=
  ⟨inv_next h.inv hl, (length_next hl).symm ▸ h.slaves, load_next_le h.load hl hin⟩

theorem Limited.openClients_le {bound : ℤ} (h : Limited bound s) :
    (s.openClients : ℤ) ≤ bound := by
  have hopen := s.openClients_le
  have hcounted := h.inv.counted_eq h.slaves
  have hload := h.load
  rw [load_eq] at hload
  omega

theorem load_init (numAgents numSchedulers : ℕ) : (init numAgents numSchedulers).load = 0 := by
  have hload : SlaveThread.init.load = 0 := rfl
  simp [load, init, hload]

theorem limited_init {bound : ℤ} (hbound : 0 ≤ bound) {numAgents : ℕ} (hagents : 0 < numAgents)
    (numSchedulers : ℕ) : Limited bound (init numAgents numSchedulers) :=
  ⟨inv_init _ _, by simpa [init] using hagents, (load_init _ _).trans_le hbound⟩

/-- In every run whose connections are accepted in time, the client connections
that are open never exceed the limit. -/
theorem clients_limited (conf : ServerConf) (hmax : 0 ≤ conf.maxNumClientsKeepalive)
    (numAgents numSchedulers : ℕ) (hagents : 0 < numAgents) (ls : List Label)
    (hrun : ((machine conf).guarded (AcceptsBelow conf.maxNumClientsKeepalive conf)).Admits
      (init numAgents numSchedulers) ls) :
    (((machine conf).exec (init numAgents numSchedulers) ls).openClients : ℤ) ≤
      conf.maxNumClientsKeepalive := by
  have h := ((machine conf).guarded (AcceptsBelow conf.maxNumClientsKeepalive conf)).invariant
    (I := Limited conf.maxNumClientsKeepalive) (fun s l h hl => limited_next h hl.1 hl.2)
    (limited_init hmax hagents numSchedulers) hrun
  exact h.openClients_le

instance (bound : ℤ) (conf : ServerConf) (s : Server) (l : Label) :
    Decidable (((machine conf).guarded (AcceptsBelow bound conf)).enabled s l) :=
  inferInstanceAs (Decidable (_ ∧ _))

def oneClientConf : ServerConf := ⟨4, 1, 60, 1000⟩

def refusedRun : List Label := newClient 10 ++ [.accept ⟨1, 11, .kRapid, 0⟩]

theorem clients_limited_refusedRun :
    ((machine oneClientConf).exec (init 2 1) refusedRun).openClients = 1 ∧
      (((machine oneClientConf).exec (init 2 1) refusedRun).openClients : ℤ) ≤
        oneClientConf.maxNumClientsKeepalive :=
  ⟨by decide, clients_limited oneClientConf (by decide) 2 1 (by decide) refusedRun (by decide)⟩

/-- The second client comes before the slave has looked at the first. -/
theorem clients_exceed_limit :
    (machine oneClientConf).Admits (init 2 1)
        [.accept ⟨0, 10, .kRapid, 0⟩, .accept ⟨1, 11, .kRapid, 0⟩] ∧
      ¬ (((machine oneClientConf).exec (init 2 1)
        [.accept ⟨0, 10, .kRapid, 0⟩, .accept ⟨1, 11, .kRapid, 0⟩]).openClients : ℤ) ≤
          oneClientConf.maxNumClientsKeepalive := by
  decide

end Server

end Magneto
