import Magneto.ServerInv
import Mathlib.Data.List.Count

/-!
# A waiting procedure has one session

A procedure that has sent a session waits for its reply. The session is a mail of
a slave, one of its registered sessions, a reply that `SendBackMsg_` could not
deliver yet, and then a mail or a task of the scheduler it came from; or it is one
for which nothing was registered, and then the procedure writes back to a client
that it has lost. `SessionInv hand` counts the sessions of every procedure in these
places and in `hand`, which a step has taken from one place and not yet put into the
next.
-/

namespace Magneto

def SlaveMsg.sessions : SlaveMsg → List ProcedureRef
  | .session p _ => [p]
  | _ => []

def SchedulerMsg.replies : SchedulerMsg → List ℕ
  | .session j => [j]
  | _ => []

/-- A reply to a mail is not counted, as the mail is still in its mailbox. -/
def Sending.sessions (q : Sending) : List ProcedureRef := if q.mail then [] else [q.procedure]

namespace SlaveThread

def sessionsOut (a : SlaveThread) : List ProcedureRef :=
  a.mailbox.flatMap SlaveMsg.sessions ++ a.sessions ++ a.sending.toList.flatMap Sending.sessions

def posted (a : SlaveThread) : List ProcedureRef := a.sessionsOut ++ a.stray

def Answering (a : SlaveThread) : Prop :=
  ∀ q, a.sending = some q → q.mail = true →
    ∃ noFd mails, a.mailbox = .session q.procedure noFd :: mails

theorem answering_of_none {a : SlaveThread} (h : a.sending = none) : a.Answering := by
  intro q hq
  rw [h] at hq
  cases hq

structure SameSessions (a a' : SlaveThread) : Prop where
  mailbox : a'.mailbox = a.mailbox
  sessions : a'.sessions = a.sessions
  sending : a'.sending = a.sending
  stray : a'.stray = a.stray

theorem SameSessions.posted {a a' : SlaveThread} (h : SameSessions a a') :
    a'.posted = a.posted := by
  rw [SlaveThread.posted, SlaveThread.sessionsOut, h.mailbox, h.sessions, h.sending, h.stray,
    SlaveThread.posted, SlaveThread.sessionsOut]

theorem sameSessions_regClient (env : ClientEnv) (a : SlaveThread) (c : ClientReq)
    (timeleftMs : ℤ) : SameSessions a (regClient env a c timeleftMs) := by
  unfold regClient
  split_ifs <;> exact ⟨rfl, rfl, rfl, rfl⟩

theorem sameSessions_handleMsgDestruct (conf : ServerConf) (env : ClientEnv) (a : SlaveThread)
    (d : ClientReq) : SameSessions a (handleMsgDestruct conf env a d) := by
  unfold handleMsgDestruct
  dsimp only
  split_ifs
  · exact ⟨rfl, rfl, rfl, rfl⟩
  · exact ⟨rfl, rfl, rfl, rfl⟩
  · exact sameSessions_regClient env a d _

theorem sameSessions_takeClient {a a' : SlaveThread} {fd : ℤ} {ctx : ReadReqCtx}
    (h : a.takeClient fd = some (ctx, a')) : SameSessions a a' := by
  obtain ⟨c, -, he⟩ := Option.map_eq_some_iff.mp h
  cases he
  exact ⟨rfl, rfl, rfl, rfl⟩

end SlaveThread

namespace SchedulerThread

def replies (t : SchedulerThread) : List ℕ :=
  t.mailbox.flatMap SchedulerMsg.replies ++ t.taskQueue.flatMap SchedulerMsg.replies

def waiting (t : SchedulerThread) (j : ℕ) : Bool :=
  t.running ≠ some j && (t.procedures[j]?).join.isSome

def wanted (t : SchedulerThread) (j : ℕ) : ℕ := if t.waiting j then 1 else 0

theorem wanted_congr {t t' : SchedulerThread} {j : ℕ} (h : t'.waiting j = t.waiting j) :
    t'.wanted j = t.wanted j := by
  unfold wanted
  rw [h]

end SchedulerThread

namespace Server

def replies (s : Server) (p : ProcedureRef) : ℕ :=
  (s.schedulers[p.scheduler]?).elim 0 fun t => t.replies.count p.procedure

/-- The sessions of a procedure that are on their way. -/
def sessions (s : Server) (p : ProcedureRef) : ℕ :=
  (s.slaves.flatMap SlaveThread.sessionsOut).count p + s.replies p

def strays (s : Server) (p : ProcedureRef) : ℕ := (s.slaves.flatMap SlaveThread.stray).count p

def posted (s : Server) (p : ProcedureRef) : ℕ :=
  (s.slaves.flatMap SlaveThread.posted).count p + s.replies p

def wanted (s : Server) (p : ProcedureRef) : ℕ :=
  (s.schedulers[p.scheduler]?).elim 0 fun t => t.wanted p.procedure

structure SessionInv (hand : List ProcedureRef) (s : Server) : Prop where
  one : ∀ p, hand.count p + s.posted p = s.wanted p
  answering : ∀ (i : ℕ) (a : SlaveThread), s.slaves[i]? = some a → a.Answering

variable {s s' : Server} {conf : ServerConf} {hand hand' : List ProcedureRef}

theorem running_of_current {t : SchedulerThread} {j : ℕ} {c : ClientReq}
    (h : t.current = some (j, c)) : t.running = some j := by
  obtain ⟨j', hj, he⟩ := Option.bind_eq_some_iff.mp h
  obtain ⟨c', -, hpair⟩ := Option.map_eq_some_iff.mp he
  cases hpair
  exact hj

namespace SessionInv

theorem shiftSlave (h : SessionInv hand s) {i : ℕ} {a a' : SlaveThread}
    (hget : s.slaves[i]? = some a) (ha : a'.Answering)
    (hcount : ∀ p, hand'.count p + a'.posted.count p =
      hand.count p + a.posted.count p) : SessionInv hand' (s.setSlave i a') := by
  refine ⟨fun p => ?_, fun j b hj => ?_⟩
  · have hperm := (List.flatMap_set_perm SlaveThread.posted hget a').count_eq p
    have hone := h.one p
    have hp := hcount p
    simp only [posted, replies, wanted, setSlave, List.count_append] at hperm hone ⊢
    omega
  · by_cases hji : j = i
    · subst hji
      rw [setSlave_self hget] at hj
      cases hj
      exact ha
    · rw [setSlave, List.getElem?_set_ne (Ne.symm hji)] at hj
      exact h.answering j b hj

theorem shiftScheduler (h : SessionInv hand s) {k : ℕ} {t t' : SchedulerThread}
    (hget : s.schedulers[k]? = some t)
    (hother : ∀ p, p.scheduler ≠ k → hand'.count p = hand.count p)
    (hcount : ∀ j, hand'.count ⟨k, j⟩ + t'.replies.count j + t.wanted j =
      hand.count ⟨k, j⟩ + t.replies.count j + t'.wanted j) :
    SessionInv hand' (s.setScheduler k t') := by
  refine ⟨fun p => ?_, h.answering⟩
  have hone := h.one p
  obtain ⟨k', j⟩ := p
  by_cases hk : k' = k
  · subst hk
    have hself : (s.setScheduler k' t').schedulers[k']? = some t' :=
      List.getElem?_set_self (List.getElem?_eq_some_iff.mp hget).1
    have hj := hcount j
    simp only [posted, replies, wanted, hself, hget, Option.elim_some] at hone ⊢
    simp only [setScheduler]
    omega
  · have hne : (s.setScheduler k t').schedulers[k']? = s.schedulers[k']? :=
      List.getElem?_set_ne (Ne.symm hk)
    have hhand := hother ⟨k', j⟩ hk
    simp only [posted, replies, wanted, hne] at hone ⊢
    simp only [setScheduler]
    omega

theorem waiting (h : SessionInv hand s) {k : ℕ} {t : SchedulerThread}
    (hget : s.schedulers[k]? = some t) {j : ℕ} (hj : j ∈ t.replies) : t.waiting j = true := by
  have hone := h.one ⟨k, j⟩
  have hpos := List.count_pos_iff.mpr hj
  simp only [posted, replies, wanted, hget, Option.elim_some, SchedulerThread.wanted] at hone
  by_contra hw
  rw [if_neg hw] at hone
  omega

theorem sendToSlave {m : SlaveMsg} (h : SessionInv (m.sessions ++ hand) s) {id : ℕ}
    (hs : s.sendToSlave conf id m = some s') : SessionInv hand s' := by
  obtain ⟨a, hget, hs⟩ := Option.bind_eq_some_iff.mp hs
  split_ifs at hs
  cases hs
  refine h.shiftSlave hget (fun q hq hm => ?_) fun p => ?_
  · obtain ⟨noFd, mails, hbox⟩ := h.answering _ a hget q hq hm
    exact ⟨noFd, mails ++ [m], by rw [hbox, List.cons_append]⟩
  · simp only [SlaveThread.posted, SlaveThread.sessionsOut, List.flatMap_append, List.flatMap_cons,
      List.flatMap_nil, List.count_append, List.append_nil]
    omega

theorem sendToScheduler {k : ℕ} {m : SchedulerMsg}
    (h : SessionInv (m.replies.map (⟨k, ·⟩) ++ hand) s)
    (hs : s.sendToScheduler conf k m = some s') : SessionInv hand s' := by
  obtain ⟨t, hget, hs⟩ := Option.bind_eq_some_iff.mp hs
  split_ifs at hs
  cases hs
  have hinj : Function.Injective fun j : ℕ => (⟨k, j⟩ : ProcedureRef) := by
    intro j j' he
    cases he
    rfl
  refine h.shiftScheduler hget (fun p hp => ?_) fun j => ?_
  · have hzero : (m.replies.map fun j => (⟨k, j⟩ : ProcedureRef)).count p = 0 := by
      refine List.count_eq_zero.mpr fun hmem => ?_
      obtain ⟨j, -, rfl⟩ := List.mem_map.mp hmem
      exact hp rfl
    rw [List.count_append, hzero, Nat.zero_add]
  · have hw : ({ t with mailbox := t.mailbox ++ [m] } : SchedulerThread).wanted j =
      t.wanted j := rfl
    rw [hw, List.count_append, List.count_map_of_injective _ _ hinj]
    simp only [SchedulerThread.replies, List.flatMap_append, List.flatMap_cons, List.flatMap_nil,
      List.count_append, List.append_nil]
    omega

theorem sendBackMsg (h : SessionInv [] s) {i : ℕ} {a b : SlaveThread}
    (hget : s.slaves[i]? = some b) {p : ProcedureRef} {mail : Bool}
    (hmail : mail = true → ∃ noFd mails, a.mailbox = .session p noFd :: mails)
    (hcount : ∀ q, b.posted.count q =
      ({ a with sending := some ⟨p, mail⟩ } : SlaveThread).posted.count q) :
    SessionInv [] (s.sendBackMsg conf i a p mail) := by
  have hdone : SessionInv [p] (s.setSlave i { (if mail then
      { a with mailbox := a.mailbox.tail } else a : SlaveThread) with sending := none }) := by
    refine h.shiftSlave hget (SlaveThread.answering_of_none rfl) fun q => ?_
    rw [hcount q]
    cases mail with
    | false =>
      simp only [SlaveThread.posted, SlaveThread.sessionsOut, Sending.sessions, Bool.false_eq_true,
        if_false, Option.toList_some, Option.toList_none, List.flatMap_cons, List.flatMap_nil,
        List.count_append, List.append_nil]
      simp only [List.count_nil]
      omega
    | true =>
      obtain ⟨noFd, mails, hbox⟩ := hmail rfl
      simp only [SlaveThread.posted, SlaveThread.sessionsOut, Sending.sessions, if_true, hbox,
        List.tail_cons, Option.toList_some, Option.toList_none, List.flatMap_cons, List.flatMap_nil,
        List.count_append, List.append_nil, SlaveMsg.sessions]
      simp only [List.count_nil]
      omega
  unfold Server.sendBackMsg
  dsimp only
  split
  · rename_i s' hs
    exact sendToScheduler (m := .session p.procedure) hdone hs
  · refine h.shiftSlave hget (fun q hq hm => ?_) fun q => ?_
    · cases hq
      exact hmail hm
    · rw [hcount q]

theorem setSlave (h : SessionInv [] s) {i : ℕ} {a a' : SlaveThread} (hget : s.slaves[i]? = some a)
    (hsame : a.SameSessions a') : SessionInv [] (s.setSlave i a') := by
  refine h.shiftSlave hget (fun q he hmail => ?_) fun p => by rw [hsame.posted]
  rw [hsame.sending] at he
  rw [hsame.mailbox]
  exact h.answering i a hget q he hmail

theorem popMail (h : SessionInv [] s) {i : ℕ} {a a' : SlaveThread} (hget : s.slaves[i]? = some a)
    (hs : a.sending = none) {m : SlaveMsg} {mails : List SlaveMsg} (hm : a.mailbox = m :: mails)
    (hnone : m.sessions = []) (hsame : SlaveThread.SameSessions { a with mailbox := mails } a') :
    SessionInv [] (s.setSlave i a') := by
  refine h.shiftSlave hget (SlaveThread.answering_of_none (hsame.sending.trans hs)) fun p => ?_
  rw [hsame.posted]
  simp only [SlaveThread.posted, SlaveThread.sessionsOut, hm, hnone, List.flatMap_cons,
    List.nil_append]

theorem slaveMail (h : SessionInv [] s) {i : ℕ} {a : SlaveThread}
    (hget : s.slaves[i]? = some a) (hs : a.sending = none) (env : ClientEnv) :
    SessionInv [] (s.slaveMail conf env i a) := by
  unfold Server.slaveMail
  split
  · rename_i m mails hm
    refine h.popMail hget hs hm rfl ?_
    have hsame := SlaveThread.sameSessions_regClient env
      { a with
        mailbox := mails
        numClientsKeepalive := a.numClientsKeepalive + 1
        poolRead := (a.poolRead.get m.category ()).2 }
      ⟨m.idProcedure, m.fdClient, m.fdClientStarttimeSec, (a.poolRead.get m.category ()).1⟩
      conf.rtimeoMs
    exact ⟨hsame.mailbox, hsame.sessions, hsame.sending, hsame.stray⟩
  · rename_i d mails hm
    exact h.popMail hget hs hm rfl (SlaveThread.sameSessions_handleMsgDestruct conf env _ d)
  · rename_i p noFd mails hm
    split_ifs
    · refine h.shiftSlave hget (SlaveThread.answering_of_none hs) fun q => ?_
      simp only [SlaveThread.posted, SlaveThread.sessionsOut, hm, hs, SlaveMsg.sessions,
        List.flatMap_cons, List.count_append, List.count_cons, List.count_nil]
      omega
    · refine h.shiftSlave hget (SlaveThread.answering_of_none hs) fun q => ?_
      simp only [SlaveThread.posted, SlaveThread.sessionsOut, hm, hs, SlaveMsg.sessions,
        List.flatMap_cons, List.count_append, List.count_cons, List.count_nil]
      omega
    · refine h.sendBackMsg hget (fun _ => ⟨noFd, mails, hm⟩) fun q => ?_
      simp only [SlaveThread.posted, SlaveThread.sessionsOut, hs, Sending.sessions, if_true,
        Option.toList_some,
        Option.toList_none, List.flatMap_cons, List.flatMap_nil, List.append_nil]
  · exact h

theorem slaveRead (h : SessionInv [] s) {i : ℕ} {a a' : SlaveThread}
    (hget : s.slaves[i]? = some a) (hsame : a.SameSessions a') (ctx : ReadReqCtx)
    (env : ClientEnv) (event : EventsDriver.Event) :
    SessionInv [] (s.slaveRead conf env event i ctx a') := by
  have hrel : ∀ c, SessionInv [] (s.setSlave i (a'.releaseClient c)) :=
    fun _ => h.setSlave hget ⟨hsame.mailbox, hsame.sessions, hsame.sending, hsame.stray⟩
  unfold Server.slaveRead
  dsimp only
  split_ifs
  · split
    · rename_i s' hs
      exact sendToScheduler (m := .newReq _) (h.setSlave hget hsame) hs
    · exact hrel _
  · exact h.setSlave hget ⟨hsame.mailbox, hsame.sessions, hsame.sending, hsame.stray⟩
  · exact hrel _
  · exact hrel _

theorem runTask (h : SessionInv [] s) {k : ℕ} {t : SchedulerThread}
    (hget : s.schedulers[k]? = some t) (hrun : t.running = none) (lost : Bool) :
    SessionInv [] (s.setScheduler k (t.runTask lost)) := by
  refine h.shiftScheduler hget (fun _ _ => rfl) fun j => ?_
  unfold SchedulerThread.runTask
  split
  · rename_i c tasks ht
    have hw : ({ t with
        taskQueue := tasks
        procedures := t.procedures ++ [some c]
        running := some t.procedures.length } : SchedulerThread).waiting j = t.waiting j := by
      simp only [SchedulerThread.waiting, hrun]
      obtain hlt | rfl | hgt := Nat.lt_trichotomy j t.procedures.length
      · rw [List.getElem?_append_left hlt]
        simp [Nat.ne_of_gt hlt]
      · simp
      · rw [List.getElem?_eq_none (by rw [List.length_append]; exact hgt),
          List.getElem?_eq_none hgt.le]
        simp
    rw [SchedulerThread.wanted_congr hw]
    simp only [SchedulerThread.replies, ht, SchedulerMsg.replies, List.flatMap_cons,
      List.nil_append]
  · rename_i i tasks ht
    have hwait : t.waiting i = true := by
      refine h.waiting hget (List.mem_append_right _ ?_)
      rw [ht]
      exact List.mem_cons_self
    have hsome := hwait
    simp only [SchedulerThread.waiting, Bool.and_eq_true] at hsome
    obtain ⟨c, hc⟩ := Option.isSome_iff_exists.mp hsome.2
    have hget' : t.procedures[i]? = some (some c) := Option.join_eq_some_iff.mp hc
    rw [hc]
    dsimp only
    by_cases hij : i = j
    · subst hij
      have hw : ({ t with
          taskQueue := tasks
          procedures := t.procedures.set i (some (if lost then { c with fdClient := -1 } else c))
          running := some i } : SchedulerThread).waiting i = false := by
        simp [SchedulerThread.waiting]
      simp only [SchedulerThread.wanted, hw, hwait, SchedulerThread.replies, ht,
        SchedulerMsg.replies, List.flatMap_cons, List.count_append, List.count_cons_self,
        List.count_nil, if_true, Bool.false_eq_true, if_false]
      omega
    · have hw : ({ t with
          taskQueue := tasks
          procedures := t.procedures.set i (some (if lost then { c with fdClient := -1 } else c))
          running := some i } : SchedulerThread).waiting j = t.waiting j := by
        simp [SchedulerThread.waiting, hrun, hij, List.getElem?_set_ne hij]
      rw [SchedulerThread.wanted_congr hw]
      simp only [SchedulerThread.replies, ht, SchedulerMsg.replies, List.flatMap_cons,
        List.count_append, List.count_cons_of_ne hij, List.count_nil]
      omega
  · rfl

theorem sendDestruct (h : SessionInv [] s) {k : ℕ} {t : SchedulerThread}
    (hget : s.schedulers[k]? = some t) {j : ℕ} {c : ClientReq} (hc : t.current = some (j, c)) :
    SessionInv [] (s.sendDestruct conf k t j c) := by
  have hrun := running_of_current hc
  have hend : SessionInv [] (s.setScheduler k (t.endProcedure j)) := by
    refine h.shiftScheduler hget (fun _ _ => rfl) fun j' => ?_
    have hw : (t.endProcedure j).waiting j' = t.waiting j' := by
      by_cases hj : j = j'
      · subst hj
        have hlt := (List.getElem?_eq_some_iff.mp (current_spec hc)).1
        simp [SchedulerThread.waiting, SchedulerThread.endProcedure, hrun,
          List.getElem?_set_self hlt]
      · simp [SchedulerThread.waiting, SchedulerThread.endProcedure, hrun, hj,
          List.getElem?_set_ne hj]
    rw [SchedulerThread.wanted_congr hw]
    rfl
  unfold Server.sendDestruct
  split
  · rename_i s' hs
    exact sendToSlave (m := .destruct c) hend hs
  · exact h.shiftScheduler hget (fun _ _ => rfl) fun _ => rfl

theorem schedulerOp (h : SessionInv [] s) {k : ℕ} {t : SchedulerThread}
    (hget : s.schedulers[k]? = some t) {j : ℕ} {c : ClientReq} (hc : t.current = some (j, c))
    {noFd : Bool} (hs : (s.setScheduler k { t with running := none }).sendToSlave conf
      c.idProcedure (.session ⟨k, j⟩ noFd) = some s') : SessionInv [] s' := by
  have hrun := running_of_current hc
  refine sendToSlave (m := .session ⟨k, j⟩ noFd) ?_ hs
  refine h.shiftScheduler hget (fun p hp => ?_) fun j' => ?_
  · exact List.count_cons_of_ne fun he => hp (congrArg (·.scheduler) he).symm
  · have hr : ({ t with running := none } : SchedulerThread).replies = t.replies := rfl
    by_cases hj : j = j'
    · subst hj
      have hw : ({ t with running := none } : SchedulerThread).waiting j = true := by
        simp [SchedulerThread.waiting, current_spec hc]
      have hw' : t.waiting j = false := by simp [SchedulerThread.waiting, hrun]
      simp only [SchedulerThread.wanted, hw, hw', SlaveMsg.sessions, List.cons_append,
        List.count_cons_self, List.nil_append, List.count_nil, if_true, Bool.false_eq_true,
        if_false, hr]
      omega
    · have hw : ({ t with running := none } : SchedulerThread).waiting j' = t.waiting j' := by
        simp [SchedulerThread.waiting, hrun, hj]
      have hne : (⟨k, j⟩ : ProcedureRef) ≠ ⟨k, j'⟩ := fun he => hj (congrArg (·.procedure) he)
      rw [SchedulerThread.wanted_congr hw, SlaveMsg.sessions, List.singleton_append,
        List.count_cons_of_ne hne, hr]

end SessionInv

theorem sessionInv_init (numAgents numSchedulers : ℕ) :
    SessionInv [] (init numAgents numSchedulers) := by
  refine ⟨fun p => ?_, fun i a hi => ?_⟩
  · have hslaves : (init numAgents numSchedulers).slaves.flatMap SlaveThread.posted = [] := by
      refine List.flatMap_eq_nil_iff.mpr fun a ha => ?_
      rw [List.eq_of_mem_replicate ha]
      rfl
    simp only [posted, replies, wanted, hslaves, List.count_nil, Nat.zero_add]
    cases hget : (init numAgents numSchedulers).schedulers[p.scheduler]? with
    | none => rfl
    | some t =>
      rw [List.eq_of_mem_replicate (List.mem_of_getElem? hget)]
      rfl
  · rw [List.eq_of_mem_replicate (List.mem_of_getElem? hi)]
    exact SlaveThread.answering_of_none rfl

theorem sessionInv_next {l : Label} (h : SessionInv [] s) (hl : s.Enabled l) :
    SessionInv [] (s.next conf l) := by
  have hcase : NextCase conf s l (s.next conf l) := next_cases hl
  generalize s.next conf l = s₁ at hcase ⊢
  cases hcase with
  | refused l => exact h
  | accept hs => exact SessionInv.sendToSlave (m := .readReq _) h hs
  | slaveMail hget hs => exact h.slaveMail hget hs _
  | slaveRead hget ht => exact h.slaveRead hget (SlaveThread.sameSessions_takeClient ht) _ _ _
  | slaveTimeout hget ht =>
    have hsame := SlaveThread.sameSessions_takeClient ht
    exact h.setSlave hget ⟨hsame.mailbox, hsame.sessions, hsame.sending, hsame.stray⟩
  | @slaveSessionEnd i p a hget =>
    obtain ⟨b, hb, hs, hp⟩ := slave_of_free hl
    rw [hget] at hb
    cases hb
    refine h.sendBackMsg hget (nomatch ·) fun q => ?_
    have hperm := (List.perm_cons_erase (of_decide_eq_true hp)).count_eq q
    simp only [SlaveThread.posted, SlaveThread.sessionsOut, hs, Sending.sessions,
      Bool.false_eq_true, if_false,
      Option.toList_some, Option.toList_none, List.flatMap_cons, List.flatMap_nil,
      List.count_append, List.count_nil, List.count_cons] at hperm ⊢
    omega
  | @slaveResend i a q hget hs =>
    refine h.sendBackMsg hget (h.answering i a hget q hs) fun p => ?_
    rw [← hs]
  | @schedulerReceive k t m mails hget hm =>
    refine h.shiftScheduler hget (fun _ _ => rfl) fun j => ?_
    have hw : ({ t with mailbox := mails, taskQueue := t.taskQueue ++ [m] } :
      SchedulerThread).wanted j = t.wanted j := rfl
    rw [hw]
    simp only [SchedulerThread.replies, hm, List.flatMap_cons, List.flatMap_append,
      List.flatMap_nil, List.append_nil, List.count_append]
    omega
  | schedulerTask hget hrun => exact h.runTask hget hrun _
  | schedulerOp hget _ hc hsend => exact h.schedulerOp hget hc hsend
  | schedulerEnd hget hc => exact h.sendDestruct hget hc
  | schedulerResend hget hc hs => exact h.sendDestruct hget hc

end Server

end Magneto
