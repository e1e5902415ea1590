import Magneto.ServerSessions
import Magneto.ServerLimit
import Mathlib.Data.List.Perm.Subperm

/-!
# Two threads that wait for each other

A slave that answers a session waits for room in the mailbox of the scheduler, and
a scheduler that ends a procedure waits for room in the mailbox of the slave. A
thread that waits receives nothing, so two threads that wait for each other with
both mailboxes full wait forever.

A mail is a connection that the slave has not looked at, a client with its reader,
or the one session of a procedure that has not ended, so no two mails are of one
client, nor is any of them of the client whose procedure runs. Two full mailboxes
and a procedure that ends therefore need more clients than the mailboxes have places.
-/

namespace Magneto

theorem SlaveMsg.length_mails (mails : List SlaveMsg) :
    mails.length = mails.countP SlaveMsg.isReadReq + (mails.flatMap SlaveMsg.reads).length +
      (mails.flatMap SlaveMsg.sessions).length := by
  induction mails with
  | nil => rfl
  | cons m mails ih =>
    rw [List.length_cons, List.countP_cons, List.flatMap_cons, List.flatMap_cons,
      List.length_append, List.length_append]
    cases m with
    | session p noFd =>
      simp only [isReadReq, reads, sessions, List.length_nil, List.length_singleton,
        Bool.false_eq_true, if_false]
      omega
    | readReq m =>
      simp only [isReadReq, reads, sessions, List.length_nil, if_true]
      omega
    | destruct c =>
      simp only [isReadReq, reads, sessions, List.length_nil, List.length_singleton,
        Bool.false_eq_true, if_false]
      omega

theorem SchedulerMsg.length_mails (mails : List SchedulerMsg) :
    mails.length = (mails.flatMap SchedulerMsg.reads).length +
      (mails.flatMap SchedulerMsg.replies).length := by
  induction mails with
  | nil => rfl
  | cons m mails ih =>
    rw [List.length_cons, List.flatMap_cons, List.flatMap_cons, List.length_append,
      List.length_append]
    cases m with
    | newReq c =>
      simp only [reads, replies, List.length_nil, List.length_singleton]
      omega
    | session j =>
      simp only [reads, replies, List.length_nil, List.length_singleton]
      omega

theorem ClientReq.length_reads (procedures : List (Option ClientReq)) :
    (procedures.flatMap ClientReq.reads).length = procedures.countP Option.isSome := by
  induction procedures with
  | nil => rfl
  | cons q procedures ih =>
    rw [List.flatMap_cons, List.length_append, List.countP_cons, ih]
    cases q with
    | none => simp [reads]
    | some c => simp [reads, Nat.add_comm]

namespace Server

variable {s s' : Server} {conf : ServerConf}

def slaveTarget (s : Server) (i : ℕ) : Option ℕ :=
  (s.slaves[i]?).bind fun a => a.sending.map (·.procedure.scheduler)

def destructTo (n : ℕ) (t : SchedulerThread) : Option ℕ :=
  t.current.map fun q => q.2.idProcedure % n

def schedulerTarget (s : Server) (k : ℕ) : Option ℕ :=
  (s.schedulers[k]?).bind fun t => if t.sending then destructTo s.slaves.length t else none

def SlaveFull (conf : ServerConf) (s : Server) (i : ℕ) : Prop :=
  ∀ a ∈ s.slaves[i]?, conf.sizeSchedulerMailbox ≤ a.mailbox.length

def SchedulerFull (conf : ServerConf) (s : Server) (k : ℕ) : Prop :=
  ∀ t ∈ s.schedulers[k]?, conf.sizeSchedulerMailbox ≤ t.mailbox.length

/-- Slave `i` spins on the full mailbox of scheduler `k`, and `k` on that of `i`. -/
def Deadlock (conf : ServerConf) (s : Server) (i k : ℕ) : Prop :=
  s.slaveTarget i = some k ∧ s.SchedulerFull conf k ∧ s.schedulerTarget k = some i ∧
    s.SlaveFull conf i

instance (conf : ServerConf) (s : Server) (i : ℕ) : Decidable (s.SlaveFull conf i) :=
  inferInstanceAs (Decidable (∀ a ∈ s.slaves[i]?, _))

instance (conf : ServerConf) (s : Server) (k : ℕ) : Decidable (s.SchedulerFull conf k) :=
  inferInstanceAs (Decidable (∀ t ∈ s.schedulers[k]?, _))

instance (conf : ServerConf) (s : Server) (i k : ℕ) : Decidable (s.Deadlock conf i k) :=
  inferInstanceAs (Decidable (_ ∧ _ ∧ _ ∧ _))

def alive (s : Server) : List ProcedureRef :=
  s.schedulers.zipIdx.flatMap fun q => (q.1.procedures.findIdxs Option.isSome).map (⟨q.2, ·⟩)

theorem mem_alive {k : ℕ} {t : SchedulerThread} (hget : s.schedulers[k]? = some t) {j : ℕ}
    (hj : (t.procedures[j]?).join.isSome) : ⟨k, j⟩ ∈ s.alive := by
  obtain ⟨c, hc⟩ := Option.isSome_iff_exists.mp hj
  obtain ⟨hlt, he⟩ := List.getElem?_eq_some_iff.mp (Option.join_eq_some_iff.mp hc)
  refine List.mem_flatMap.mpr ⟨(t, k), List.mem_zipIdx_iff_getElem?.mpr hget, ?_⟩
  refine List.mem_map.mpr ⟨j, ?_, rfl⟩
  rw [List.mem_findIdxs_iff_pos_getElem hlt, he]
  rfl

theorem length_alive (s : Server) : s.alive.length =
    (s.schedulers.map fun t => (t.procedures.flatMap ClientReq.reads).length).sum := by
  have hmap : s.schedulers.zipIdx.map (fun q => q.1.procedures.countP Option.isSome) =
      s.schedulers.map fun t => t.procedures.countP Option.isSome := by
    conv_rhs => rw [← List.zipIdx_map_fst 0 s.schedulers, List.map_map]
    rfl
  rw [alive, List.length_flatMap]
  simp only [List.length_map, List.length_findIdxs, ClientReq.length_reads]
  rw [hmap]

def engaged (a : SlaveThread) (k : ℕ) (t : SchedulerThread) (j : ℕ) : List ProcedureRef :=
  ⟨k, j⟩ :: (t.mailbox.flatMap SchedulerMsg.replies).map (⟨k, ·⟩) ++
    a.mailbox.flatMap SlaveMsg.sessions

theorem SessionInv.posted_alive (h : SessionInv [] s) {p : ProcedureRef} (hp : 0 < s.posted p) :
    s.posted p = 1 ∧ p ∈ s.alive := by
  have hone := h.one p
  rw [List.count_nil, Nat.zero_add, wanted] at hone
  cases hget : s.schedulers[p.scheduler]? with
  | none =>
    rw [hget, Option.elim_none] at hone
    omega
  | some t =>
    rw [hget, Option.elim_some, SchedulerThread.wanted] at hone
    split_ifs at hone with hw
    · simp only [SchedulerThread.waiting, Bool.and_eq_true] at hw
      exact ⟨hone, mem_alive hget hw.2⟩
    · omega

theorem mails_le_posted {i : ℕ} {a : SlaveThread} (ha : s.slaves[i]? = some a) {k : ℕ}
    {t : SchedulerThread} (ht : s.schedulers[k]? = some t) (p : ProcedureRef) :
    ((t.mailbox.flatMap SchedulerMsg.replies).map fun j => (⟨k, j⟩ : ProcedureRef)).count p +
      (a.mailbox.flatMap SlaveMsg.sessions).count p ≤ s.posted p := by
  have hslave : (a.mailbox.flatMap SlaveMsg.sessions).count p ≤
      (s.slaves.flatMap SlaveThread.posted).count p := by
    have hsub : (a.mailbox.flatMap SlaveMsg.sessions).Sublist a.posted :=
      ((List.sublist_append_left _ _).trans (List.sublist_append_left _ _)).trans
        (List.sublist_append_left _ _)
    obtain ⟨l₁, l₂, heq, -⟩ := List.exists_append_of_getElem? ha
    have hcount := hsub.count_le p
    rw [heq]
    simp only [List.flatMap_append, List.flatMap_cons, List.count_append]
    omega
  have hreply :
      ((t.mailbox.flatMap SchedulerMsg.replies).map fun j => (⟨k, j⟩ : ProcedureRef)).count p ≤
        s.replies p := by
    obtain ⟨k', j⟩ := p
    by_cases hk : k = k'
    · subst hk
      have hinj : Function.Injective fun j : ℕ => (⟨k, j⟩ : ProcedureRef) :=
        fun _ _ he => congrArg ProcedureRef.procedure he
      rw [List.count_map_of_injective _ _ hinj, replies, ht, Option.elim_some,
        SchedulerThread.replies, List.count_append]
      exact Nat.le_add_right _ _
    · have hzero : ((t.mailbox.flatMap SchedulerMsg.replies).map
          fun j => (⟨k, j⟩ : ProcedureRef)).count ⟨k', j⟩ = 0 := by
        refine List.count_eq_zero.mpr fun hmem => ?_
        obtain ⟨j', -, he⟩ := List.mem_map.mp hmem
        exact hk (congrArg ProcedureRef.scheduler he)
      omega
  rw [posted]
  omega

theorem engaged_subperm (h : SessionInv [] s) {i : ℕ} {a : SlaveThread}
    (ha : s.slaves[i]? = some a) {k : ℕ} {t : SchedulerThread} (ht : s.schedulers[k]? = some t)
    {j : ℕ} {c : ClientReq} (hc : t.current = some (j, c)) :
    (engaged a k t j).Subperm s.alive := by
  have hrun : ⟨k, j⟩ ∈ s.alive := by
    refine mem_alive ht ?_
    have hcur := current_spec hc
    rw [hcur]
    rfl
  refine List.subperm_ext_iff.mpr fun p _ => ?_
  have hle := mails_le_posted ha ht p
  rw [engaged, List.cons_append, List.count_cons, List.count_append]
  by_cases hp : p = ⟨k, j⟩
  · subst hp
    -- the procedure that runs waits for nothing
    have hzero : s.posted ⟨k, j⟩ = 0 := by
      have hone := h.one ⟨k, j⟩
      have hw : t.waiting j = false := by
        simp [SchedulerThread.waiting, running_of_current hc]
      rw [List.count_nil, Nat.zero_add, wanted, ht, Option.elim_some, SchedulerThread.wanted, hw,
        if_neg Bool.false_ne_true] at hone
      exact hone
    have hpos := List.count_pos_iff.mpr hrun
    simp only [beq_self_eq_true, if_true]
    omega
  · have hne : ((⟨k, j⟩ : ProcedureRef) == p) = false := beq_false_of_ne (Ne.symm hp)
    rw [hne, if_neg Bool.false_ne_true]
    rcases Nat.eq_zero_or_pos (s.posted p) with hzero | hpos
    · omega
    · obtain ⟨hone, hmem⟩ := h.posted_alive hpos
      have hcount := List.count_pos_iff.mpr hmem
      omega

theorem length_held_ge {i : ℕ} {a : SlaveThread} (ha : s.slaves[i]? = some a) {k : ℕ}
    {t : SchedulerThread} (ht : s.schedulers[k]? = some t) :
    (a.mailbox.flatMap SlaveMsg.reads).length + (t.mailbox.flatMap SchedulerMsg.reads).length +
      s.alive.length ≤ s.held.length := by
  have hslaves : (a.mailbox.flatMap SlaveMsg.reads).length ≤
      (s.slaves.flatMap SlaveThread.held).length := by
    obtain ⟨l₁, l₂, heq, -⟩ := List.exists_append_of_getElem? ha
    simp only [heq, List.flatMap_append, List.flatMap_cons, List.length_append, SlaveThread.held]
    omega
  have hsched : (t.mailbox.flatMap SchedulerMsg.reads).length + s.alive.length ≤
      (s.schedulers.flatMap SchedulerThread.held).length := by
    have hsum : ∀ l : List SchedulerThread,
        (l.map fun t => (t.procedures.flatMap ClientReq.reads).length).sum ≤
          (l.flatMap SchedulerThread.held).length := by
      intro l
      induction l with
      | nil => exact le_rfl
      | cons t l ih =>
        simp only [List.map_cons, List.sum_cons, List.flatMap_cons, List.length_append,
          SchedulerThread.held]
        omega
    obtain ⟨l₁, l₂, heq, -⟩ := List.exists_append_of_getElem? ht
    have h₁ := hsum l₁
    have h₂ := hsum l₂
    rw [length_alive, heq]
    simp only [List.map_append, List.map_cons, List.sum_append, List.sum_cons,
      List.flatMap_append, List.flatMap_cons, List.length_append, SchedulerThread.held]
    omega
  rw [held, List.length_append]
  omega

theorem mails_lt_load (h : Inv [] s) (hs : SessionInv [] s) {i : ℕ} {a : SlaveThread}
    (ha : s.slaves[i]? = some a) {k : ℕ} {t : SchedulerThread} (ht : s.schedulers[k]? = some t)
    {j : ℕ} {c : ClientReq} (hc : t.current = some (j, c)) :
    ((a.mailbox.length + t.mailbox.length : ℕ) : ℤ) < s.load := by
  have hslaves : 0 < s.slaves.length := (List.getElem?_eq_some_iff.mp ha).1.pos
  have hengaged := (engaged_subperm hs ha ht hc).length_le
  have hheld := length_held_ge ha ht
  have hwaiting : a.waiting ≤ s.waiting := by
    obtain ⟨l₁, l₂, heq, -⟩ := List.exists_append_of_getElem? ha
    rw [waiting, heq, List.map_append, List.map_cons, List.sum_append, List.sum_cons]
    omega
  have hslaveMails := SlaveMsg.length_mails a.mailbox
  have hschedulerMails := SchedulerMsg.length_mails t.mailbox
  rw [engaged, List.cons_append, List.length_cons, List.length_append, List.length_map]
    at hengaged
  rw [SlaveThread.waiting] at hwaiting
  rw [load_eq, h.counted_eq hslaves]
  omega

/-- Two threads that wait for each other hold more clients than their mailboxes have places. -/
theorem Deadlock.load (h : Inv [] s) (hs : SessionInv [] s) {i k : ℕ}
    (hd : s.Deadlock conf i k) : 2 * (conf.sizeSchedulerMailbox : ℤ) < s.load := by
  obtain ⟨hslave, hschedulerFull, hscheduler, hslaveFull⟩ := hd
  obtain ⟨a, ha, -⟩ := Option.bind_eq_some_iff.mp hslave
  obtain ⟨t, ht, hto⟩ := Option.bind_eq_some_iff.mp hscheduler
  split_ifs at hto
  obtain ⟨⟨j, c⟩, hc, -⟩ := Option.map_eq_some_iff.mp hto
  have hlt := mails_lt_load h hs ha ht hc
  have ha' := hslaveFull a ha
  have ht' := hschedulerFull t ht
  omega

structure LoadInv (bound : ℤ) (s : Server) : Prop where
  inv : Inv [] s
  sessions : SessionInv [] s
  load : s.load ≤ bound

theorem loadInv_next {bound : ℤ} {l : Label} (h : LoadInv bound s) (hl : s.Enabled l)
    (hin : s.AcceptsBelow bound conf l) : LoadInv bound (s.next conf l) :=
  ⟨inv_next h.inv hl, sessionInv_next h.sessions hl, load_next_le h.load hl hin⟩

theorem no_deadlock {bound : ℕ} (hbound : bound ≤ 2 * conf.sizeSchedulerMailbox)
    (numAgents numSchedulers : ℕ) {ls : List Label}
    (hrun : ((machine conf).guarded (AcceptsBelow bound conf)).Admits
      (init numAgents numSchedulers) ls) (i k : ℕ) :
    ¬ Deadlock conf ((machine conf).exec (init numAgents numSchedulers) ls) i k := by
  have hinit : LoadInv bound (init numAgents numSchedulers) :=
    ⟨inv_init _ _, sessionInv_init _ _, (load_init _ _).trans_le (Int.natCast_nonneg bound)⟩
  have h := ((machine conf).guarded (AcceptsBelow bound conf)).invariant (I := LoadInv bound)
    (fun _ _ h hl => loadInv_next h hl.1 hl.2) hinit hrun
  intro hd
  have hlt := hd.load h.inv h.sessions
  have hle := h.load
  have hle' : 2 * (conf.sizeSchedulerMailbox : ℤ) < bound := hlt.trans_le hle
  omega

structure Quiet (a : SlaveThread) : Prop where
  mailbox : a.mailbox = []
  clients : a.clients = []
  sending : a.sending = none

section full

variable (conf) (bound : ℕ)

theorem reaches_newClient {a : SlaveThread} (ha : Quiet a) {t : SchedulerThread}
    (hroom : t.mailbox.length < conf.sizeSchedulerMailbox)
    (hbelow : a.numClientsKeepalive < bound)
    (hmax : a.numClientsKeepalive < conf.maxNumClientsKeepalive) (fd : ℤ) :
    ∃ a' c, Quiet a' ∧ a'.numClientsKeepalive = a.numClientsKeepalive + 1 ∧
      ((machine conf).guarded (AcceptsBelow bound conf)).Reaches ⟨[a], [t]⟩ (newClient fd)
        ⟨[a'], [{ t with mailbox := t.mailbox ++ [.newReq c] }]⟩ := by
  obtain ⟨hm, hc, hs⟩ := ha
  have hsize : 0 < conf.sizeSchedulerMailbox := by omega
  refine ⟨{ a with
    numClientsKeepalive := a.numClientsKeepalive + 1
    poolRead := (a.poolRead.get .kRapid ()).2 }, ⟨0, fd, 0, (a.poolRead.get .kRapid ()).1⟩,
    ⟨hm, hc, hs⟩, rfl, ?_, ?_⟩
  · simp [newClient, Machine.Admits, Machine.guarded, machine, Enabled, SlaveFree, AcceptsBelow,
      counted, waiting, SlaveThread.waiting, next, clientsNotFull, sendToSlave, setSlave, slaveMail,
      SlaveThread.handleMsgReadReq, SlaveThread.regClient, okEnv, SlaveThread.takeClient, hm, hc,
        hs, hsize, hbelow, hmax]
  · simp [newClient, Machine.exec, Machine.guarded, machine, next, clientsNotFull, sendToSlave,
      setSlave, slaveMail, SlaveThread.handleMsgReadReq, SlaveThread.regClient, okEnv,
      SlaveThread.takeClient, slaveRead, SlaveThread.handleReadReq, sendToOneWorker,
      sendToScheduler, setScheduler, hm, hc, hs, hsize, hmax, hroom]

theorem reaches_newClients (fds : List ℤ) {a : SlaveThread} (ha : Quiet a)
    {t : SchedulerThread} (hroom : t.mailbox.length + fds.length ≤ conf.sizeSchedulerMailbox)
    (hbelow : a.numClientsKeepalive + fds.length ≤ bound)
    (hmax : a.numClientsKeepalive + fds.length ≤ conf.maxNumClientsKeepalive) :
    ∃ a' mails, Quiet a' ∧ a'.numClientsKeepalive = a.numClientsKeepalive + fds.length ∧
      mails.length = fds.length ∧
      ((machine conf).guarded (AcceptsBelow bound conf)).Reaches ⟨[a], [t]⟩
        (fds.flatMap newClient) ⟨[a'], [{ t with mailbox := t.mailbox ++ mails }]⟩ := by
  induction fds generalizing a t with
  | nil => exact ⟨a, [], ha, by simp, rfl, trivial, by simp [Machine.exec]⟩
  | cons fd fds ih =>
    rw [List.length_cons] at hroom hbelow hmax
    push_cast at hbelow hmax
    obtain ⟨a₁, c, ha₁, hnum₁, hreach₁⟩ := reaches_newClient conf bound ha
      (t := t) (by omega) (by omega) (by omega) fd
    obtain ⟨a', mails, ha', hnum, hlen, hreach⟩ := ih ha₁
      (t := { t with mailbox := t.mailbox ++ [.newReq c] })
      (by rw [List.length_append, List.length_singleton]; omega) (by omega) (by omega)
    refine ⟨a', .newReq c :: mails, ha', ?_, by simp [hlen], ?_⟩
    · rw [hnum, hnum₁, List.length_cons]
      push_cast
      omega
    · rw [List.append_assoc, List.singleton_append] at hreach
      rw [List.flatMap_cons]
      exact hreach₁.append hreach

theorem reaches_accepts (fds : List ℤ) {a : SlaveThread} (t : SchedulerThread)
    (hroom : a.mailbox.length + fds.length ≤ conf.sizeSchedulerMailbox)
    (hbelow : a.load + fds.length ≤ bound)
    (hmax : a.numClientsKeepalive + fds.length ≤ conf.maxNumClientsKeepalive) :
    ∃ mails, mails.length = fds.length ∧
      ((machine conf).guarded (AcceptsBelow bound conf)).Reaches ⟨[a], [t]⟩
        (fds.map fun fd => .accept ⟨0, fd, .kRapid, 0⟩)
        ⟨[{ a with mailbox := a.mailbox ++ mails }], [t]⟩ := by
  induction fds generalizing a with
  | nil => exact ⟨[], rfl, trivial, by simp [Machine.exec]⟩
  | cons fd fds ih =>
    rw [List.length_cons] at hroom hbelow hmax
    push_cast at hbelow hmax
    let m : SlaveMsg := .readReq ⟨0, fd, .kRapid, 0⟩
    have hnext : next conf ⟨[a], [t]⟩ (.accept ⟨0, fd, .kRapid, 0⟩) =
        ⟨[{ a with mailbox := a.mailbox ++ [m] }], [t]⟩ := by
      have hlt : a.mailbox.length < conf.sizeSchedulerMailbox := by omega
      have hopen : a.numClientsKeepalive < conf.maxNumClientsKeepalive := by omega
      simp [next, clientsNotFull, sendToSlave, setSlave, hopen, hlt, m]
    have hload : ({ a with mailbox := a.mailbox ++ [m] } : SlaveThread).load = a.load + 1 := by
      simp [SlaveThread.load, SlaveThread.waiting, SlaveMsg.isReadReq, m]
      omega
    have hguard : AcceptsBelow bound conf ⟨[a], [t]⟩ (.accept ⟨0, fd, .kRapid, 0⟩) := by
      intro _
      rw [← load_eq]
      simp only [load, List.map_cons, List.map_nil, List.sum_singleton]
      omega
    have hfirst : ((machine conf).guarded (AcceptsBelow bound conf)).Reaches ⟨[a], [t]⟩
        [.accept ⟨0, fd, .kRapid, 0⟩] ⟨[{ a with mailbox := a.mailbox ++ [m] }], [t]⟩ :=
      ⟨⟨⟨trivial, hguard⟩, trivial⟩, hnext⟩
    obtain ⟨mails, hlen, hreach⟩ := ih (a := { a with mailbox := a.mailbox ++ [m] })
      (by rw [List.length_append, List.length_singleton]; omega) (by omega)
      (by show a.numClientsKeepalive + _ ≤ _; omega)
    refine ⟨m :: mails, by simp [hlen], ?_⟩
    rw [List.append_assoc, List.singleton_append] at hreach
    exact hfirst.append hreach

theorem reaches_receive (a : SlaveThread) {t : SchedulerThread} (hrun : t.running = none)
    {m : SchedulerMsg} (hm : t.mailbox = [m]) :
    ((machine conf).guarded (AcceptsBelow bound conf)).Reaches ⟨[a], [t]⟩ [.schedulerReceive 0]
      ⟨[a], [{ t with mailbox := [], taskQueue := t.taskQueue ++ [m] }]⟩ := by
  refine ⟨⟨⟨?_, trivial⟩, trivial⟩, ?_⟩
  · simp [machine, Enabled, SchedulerIs, hrun, hm]
  · simp [Machine.exec, Machine.guarded, machine, next, setScheduler, hm]

def refusedEnv : ClientEnv := { okEnv with resetOk := false }

/-- The first procedure sends a session, the second runs, and the slave cannot report that the
session was refused. -/
theorem reaches_refused {a : SlaveThread} (ha : Quiet a)
    (hsize : 1 ≤ conf.sizeSchedulerMailbox) (c c' : ClientReq) {mails : List SchedulerMsg}
    (hfull : mails.length = conf.sizeSchedulerMailbox) :
    ((machine conf).guarded (AcceptsBelow bound conf)).Reaches
      ⟨[a], [⟨mails, [.newReq c, .newReq c'], [], none, false⟩]⟩
      [.schedulerTask 0 false, .schedulerOp 0 false, .schedulerTask 0 false,
        .slaveMail 0 refusedEnv]
      ⟨[{ a with mailbox := [.session ⟨0, 0⟩ false], sending := some ⟨⟨0, 0⟩, true⟩ }],
        [⟨mails, [], [some c, some c'], some 1, false⟩]⟩ := by
  obtain ⟨hm, hc, hs⟩ := ha
  have hroom : 0 < conf.sizeSchedulerMailbox := hsize
  constructor
  · simp [Machine.Admits, Machine.guarded, machine, Enabled, SlaveFree, SchedulerIs, AcceptsBelow,
      next, SchedulerThread.runTask, SchedulerThread.current, sendToSlave, setSlave, setScheduler,
      Nat.mod_one, hm, hs, hroom]
  · simp [Machine.exec, Machine.guarded, machine, next, SchedulerThread.runTask,
      SchedulerThread.current, sendToSlave, setSlave, setScheduler, slaveMail, refusedEnv,
      sendBackMsg, sendToScheduler, Nat.mod_one, hm, hs, hroom, hfull]

/-- The second procedure ends, and the scheduler cannot send its client back. -/
theorem reaches_spin {a : SlaveThread} {t : SchedulerThread} {c : ClientReq}
    (hfull : conf.sizeSchedulerMailbox ≤ a.mailbox.length) (hc : t.current = some (1, c))
    (hs : t.sending = false) :
    ((machine conf).guarded (AcceptsBelow bound conf)).Reaches ⟨[a], [t]⟩ [.schedulerEnd 0]
      ⟨[a], [{ t with sending := true }]⟩ := by
  have hlt : ¬ a.mailbox.length < conf.sizeSchedulerMailbox := by omega
  refine ⟨⟨⟨?_, trivial⟩, trivial⟩, ?_⟩
  · simp [machine, Enabled, SchedulerIs, hc, hs]
  · simp [Machine.exec, Machine.guarded, machine, next, hc, sendDestruct, sendToSlave, setScheduler,
      Nat.mod_one, hlt]

/-- One client more than the two mailboxes have places. -/
def fullRun (size : ℕ) : List Label :=
  newClient 10 ++ ([.schedulerReceive 0] ++ (newClient 11 ++ ([.schedulerReceive 0] ++
    (((List.range size).map fun n => ((12 + n : ℕ) : ℤ)).flatMap newClient ++
    ([.schedulerTask 0 false, .schedulerOp 0 false, .schedulerTask 0 false,
      .slaveMail 0 refusedEnv] ++
    (((List.range (size - 1)).map fun n => ((12 + size + n : ℕ) : ℤ)).map
      (fun fd => .accept ⟨0, fd, .kRapid, 0⟩) ++ [.schedulerEnd 0]))))))

theorem fullRun_deadlock (hsize : 1 ≤ conf.sizeSchedulerMailbox)
    (hbound : 2 * conf.sizeSchedulerMailbox < bound)
    (hmax : (bound : ℤ) ≤ conf.maxNumClientsKeepalive) :
    ((machine conf).guarded (AcceptsBelow bound conf)).Admits (init 1 1)
        (fullRun conf.sizeSchedulerMailbox) ∧
      Deadlock conf ((machine conf).exec (init 1 1) (fullRun conf.sizeSchedulerMailbox)) 0 0 := by
  have hquiet : Quiet .init := ⟨rfl, rfl, rfl⟩
  have hnum : SlaveThread.init.numClientsKeepalive = 0 := rfl
  obtain ⟨a₁, c, ha₁, hnum₁, h₁⟩ := reaches_newClient conf bound hquiet
    (t := .init) (by simp [SchedulerThread.init]; omega) (by omega) (by omega) 10
  have h₂ := reaches_receive conf bound a₁
    (t := ⟨[.newReq c], [], [], none, false⟩) rfl rfl
  obtain ⟨a₃, c', ha₃, hnum₃, h₃⟩ := reaches_newClient conf bound ha₁
    (t := ⟨[], [.newReq c], [], none, false⟩) (by simp; omega) (by omega) (by omega) 11
  have h₄ := reaches_receive conf bound a₃
    (t := ⟨[.newReq c'], [.newReq c], [], none, false⟩) rfl rfl
  obtain ⟨a₅, mails, ha₅, hnum₅, hlen₅, h₅⟩ := reaches_newClients conf bound
    ((List.range conf.sizeSchedulerMailbox).map fun n => ((12 + n : ℕ) : ℤ)) ha₃
    (t := ⟨[], [.newReq c, .newReq c'], [], none, false⟩) (by simp) (by simp; omega)
    (by simp; omega)
  rw [List.length_map, List.length_range] at hnum₅ hlen₅
  have h₆ := reaches_refused conf bound ha₅ hsize c c' hlen₅
  obtain ⟨mails', hlen₇, h₇⟩ := reaches_accepts conf bound
    ((List.range (conf.sizeSchedulerMailbox - 1)).map
      fun n => ((12 + conf.sizeSchedulerMailbox + n : ℕ) : ℤ))
    (a := { a₅ with
      mailbox := [.session ⟨0, 0⟩ false]
      sending := some ⟨⟨0, 0⟩, true⟩ })
    ⟨mails, [], [some c, some c'], some 1, false⟩ (by simp; omega)
    (by simp [SlaveThread.load, SlaveThread.waiting, SlaveMsg.isReadReq]; omega)
    (by simp; omega)
  rw [List.length_map, List.length_range] at hlen₇
  have hfull : conf.sizeSchedulerMailbox ≤
      ([.session ⟨0, 0⟩ false] ++ mails' : List SlaveMsg).length := by
    simp [hlen₇]
    omega
  have h₈ := reaches_spin conf bound
    (a := { a₅ with
      mailbox := [.session ⟨0, 0⟩ false] ++ mails'
      sending := some ⟨⟨0, 0⟩, true⟩ })
    (t := ⟨mails, [], [some c, some c'], some 1, false⟩) hfull rfl rfl
  obtain ⟨hadm, hexec⟩ :=
    h₁.append (h₂.append (h₃.append (h₄.append (h₅.append (h₆.append (h₇.append h₈))))))
  refine ⟨hadm, ?_⟩
  have hexec' : (machine conf).exec (init 1 1) (fullRun conf.sizeSchedulerMailbox) = _ := hexec
  rw [hexec']
  refine ⟨rfl, ?_, ?_, ?_⟩
  · intro t ht
    cases ht
    exact hlen₅.ge
  · simp [schedulerTarget, destructTo, SchedulerThread.current, Nat.mod_one]
  · intro a ha
    cases ha
    exact hfull

end full

/-- Two clients meet two mailboxes of one message: the first procedure's session is refused, and
the second procedure ends. -/
def busyRun : List Label :=
  newClient 10 ++ [.schedulerReceive 0] ++ newClient 11 ++
    [.schedulerTask 0 false, .schedulerOp 0 false, .slaveMail 0 refusedEnv]

/-- Four clients meet two mailboxes of one message: the slave waits to report the first session
behind the request of the third client, the fourth connection is in its own mailbox, and the
second procedure ends. -/
def crowdedRun : List Label :=
  newClient 10 ++ [.schedulerReceive 0, .schedulerTask 0 false, .schedulerOp 0 false,
    .slaveMail 0 okEnv] ++ newClient 11 ++ [.schedulerReceive 0, .schedulerTask 0 false] ++
    newClient 12 ++ [.slaveSessionEnd 0 ⟨0, 0⟩, .accept ⟨0, 13, .kRapid, 0⟩, .schedulerEnd 0]

end Server

end Magneto
