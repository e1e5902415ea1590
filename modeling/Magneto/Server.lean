import Magneto.EventsDriver
import Magneto.Lib.Machine

/-!
# The threads of a server and their mailboxes

The agent master, the agent slaves and the request schedulers, with the messages
they send each other. A step is one accepted connection, one mail, one event or
one expired timer of a slave, or one move of a scheduler. Mailboxes are bounded
queues: a session operation and a new request are refused by a full one, while
`SendBackMsg_` and `SendMsgWithRetry` spin until the message is accepted, and a
spinning thread does nothing else.

What a slave does on sessions and with the connections a `MsgDestruct` carries is
modelled elsewhere; here a session that has an event ends at some time. A procedure
that writes back to a client it has lost posts a talk with descriptor -1:
`Session::Reset` registers nothing for it and returns true all the same. `Reset` of a
procedure and `swapcontext` do not fail. Nothing in the program sends a `MsgConfig`.
-/

namespace Magneto

structure ServerConf where
  sizeSchedulerMailbox : ℕ
  maxNumClientsKeepalive : ℤ
  clientKeepaliveSec : ℤ
  rtimeoMs : ℤ
  deriving DecidableEq, Repr

structure ClientReq where
  idProcedure : ℕ
  fdClient : ℤ
  fdClientStarttimeSec : ℤ
  protocolRead : PoolObj Protocol.Category Unit

structure MsgReadReq where
  idProcedure : ℕ
  fdClient : ℤ
  category : Protocol.Category
  fdClientStarttimeSec : ℤ

structure ReadReqCtx where
  client : ClientReq
  timeleftMs : ℤ
  lasttimeMs : ℤ

def ReadReqCtx.checkTimeout (now : ℤ) (ctx : ReadReqCtx) : Bool × ReadReqCtx :=
  let consumed := now - ctx.lasttimeMs
  if ctx.timeleftMs ≤ consumed then (false, ctx)
  else (true, { ctx with timeleftMs := ctx.timeleftMs - consumed, lasttimeMs := now })

structure ProcedureRef where
  scheduler : ℕ
  procedure : ℕ
  deriving DecidableEq, Repr

/-- `noFd` tells that the only talk of the session has no descriptor. -/
inductive SlaveMsg
  | session (p : ProcedureRef) (noFd : Bool)
  | readReq (m : MsgReadReq)
  | destruct (c : ClientReq)

inductive SchedulerMsg
  | newReq (c : ClientReq)
  | session (procedure : ℕ)

/-- A reply that `SendBackMsg_` could not deliver yet; `mail` tells that it answers the first
mail of the mailbox, which is consumed only afterwards. -/
structure Sending where
  procedure : ProcedureRef
  mail : Bool
  deriving DecidableEq, Repr

structure ClientEnv where
  now : ℤ
  nowSec : ℤ
  addOk : Bool
  modOk : Bool
  readRet : ℤ
  decoded : Bool
  resetOk : Bool
  deriving DecidableEq, Repr

structure SlaveThread where
  mailbox : List SlaveMsg
  clients : List ReadReqCtx
  sessions : List ProcedureRef
  sending : Option Sending
  numClientsKeepalive : ℤ
  poolRead : ObjectPool Protocol.Category Unit
  -- history: the sessions that have no event and will never end
  stray : List ProcedureRef

namespace SlaveThread

def init : SlaveThread := ⟨[], [], [], none, 0, .empty, []⟩

def closeFdClient (a : SlaveThread) : SlaveThread :=
  { a with numClientsKeepalive := a.numClientsKeepalive - 1 }

def freeRead (a : SlaveThread) (o : PoolObj Protocol.Category Unit) : SlaveThread :=
  { a with poolRead := a.poolRead.put o }

def releaseClient (a : SlaveThread) (c : ClientReq) : SlaveThread :=
  a.closeFdClient.freeRead c.protocolRead

def regClient (env : ClientEnv) (a : SlaveThread) (c : ClientReq) (timeleftMs : ℤ) :
    SlaveThread :=
  if env.addOk then { a with clients := ⟨c, timeleftMs, env.now⟩ :: a.clients }
  else a.releaseClient c

def handleMsgReadReq (conf : ServerConf) (env : ClientEnv) (a : SlaveThread) (m : MsgReadReq) :
    SlaveThread :=
  let o := a.poolRead.get m.category ()
  regClient env
    { a with numClientsKeepalive := a.numClientsKeepalive + 1, poolRead := o.2 }
    ⟨m.idProcedure, m.fdClient, m.fdClientStarttimeSec, o.1⟩ conf.rtimeoMs

/-- `HandleMsgDestruct_`, after the cached connections were given back. -/
def handleMsgDestruct (conf : ServerConf) (env : ClientEnv) (a : SlaveThread) (d : ClientReq) :
    SlaveThread :=
  if d.fdClient ≤ 0 then
    { a with numClientsKeepalive := a.numClientsKeepalive - 1 }.freeRead d.protocolRead
  else
    let timeleftMs := min
      ((d.fdClientStarttimeSec + conf.clientKeepaliveSec - env.nowSec + 1) * 1000) conf.rtimeoMs
    if timeleftMs ≤ 0 then a.releaseClient d else regClient env a d timeleftMs

/-- `HandleReadReq_`; the descriptor stays registered only when the result is positive. -/
def handleReadReq (env : ClientEnv) (ctx : ReadReqCtx) : ℤ × ReadReqCtx :=
  if env.readRet = 0 then (if env.decoded then 0 else -1, ctx)
  else if 0 < env.readRet then
    let c := ctx.checkTimeout env.now
    if !c.1 then (-1, ctx) else if env.modOk then (1, c.2) else (-1, c.2)
  else (env.readRet, ctx)

def takeClient (a : SlaveThread) (fd : ℤ) : Option (ReadReqCtx × SlaveThread) :=
  (a.clients.find? (fun ctx => ctx.client.fdClient = fd)).map fun ctx =>
    (ctx, { a with clients := a.clients.eraseP (fun ctx => ctx.client.fdClient = fd) })

end SlaveThread

/-- A procedure is given by the client it serves; its slot is empty once it has ended. -/
structure SchedulerThread where
  mailbox : List SchedulerMsg
  taskQueue : List SchedulerMsg
  procedures : List (Option ClientReq)
  running : Option ℕ
  sending : Bool

namespace SchedulerThread

def init : SchedulerThread := ⟨[], [], [], none, false⟩

def current (t : SchedulerThread) : Option (ℕ × ClientReq) :=
  t.running.bind fun j => (t.procedures[j]?).join.map fun c => (j, c)

def endProcedure (t : SchedulerThread) (j : ℕ) : SchedulerThread :=
  { t with procedures := t.procedures.set j none, running := none, sending := false }

/-- A task of the queue: a new procedure, or one whose session is finished. `lost` tells that
the operation was a `WriteBack` and lost the client connection. -/
def runTask (lost : Bool) (t : SchedulerThread) : SchedulerThread :=
  match t.taskQueue with
  | .newReq c :: tasks =>
    { t with
      taskQueue := tasks
      procedures := t.procedures ++ [some c]
      running := some t.procedures.length }
  | .session j :: tasks => match (t.procedures[j]?).join with
    | some c =>
      { t with
        taskQueue := tasks
        procedures := t.procedures.set j (some (if lost then { c with fdClient := -1 } else c))
        running := some j }
    | none => { t with taskQueue := tasks }
  | [] => t

end SchedulerThread

structure Server where
  slaves : List SlaveThread
  schedulers : List SchedulerThread

namespace Server

def init (numAgents numSchedulers : ℕ) : Server :=
  ⟨List.replicate numAgents .init, List.replicate numSchedulers .init⟩

def setSlave (s : Server) (i : ℕ) (a : SlaveThread) : Server :=
  { s with slaves := s.slaves.set i a }

def setScheduler (s : Server) (k : ℕ) (t : SchedulerThread) : Server :=
  { s with schedulers := s.schedulers.set k t }

/-- `Agents::SendMsg`; there is no result when the mailbox is full. -/
def sendToSlave (conf : ServerConf) (s : Server) (id : ℕ) (m : SlaveMsg) : Option Server :=
  (s.slaves[id % s.slaves.length]?).bind fun a =>
    if a.mailbox.length < conf.sizeSchedulerMailbox then
      some (s.setSlave (id % s.slaves.length) { a with mailbox := a.mailbox ++ [m] })
    else none

def sendToScheduler (conf : ServerConf) (s : Server) (k : ℕ) (m : SchedulerMsg) :
    Option Server :=
  (s.schedulers[k]?).bind fun t =>
    if t.mailbox.length < conf.sizeSchedulerMailbox then
      some (s.setScheduler k { t with mailbox := t.mailbox ++ [m] })
    else none

def sendToOneWorker (conf : ServerConf) (s : Server) (c : ClientReq) : Option Server :=
  s.sendToScheduler conf (c.idProcedure % s.schedulers.length) (.newReq c)

def clientsNotFull (conf : ServerConf) (s : Server) : Bool :=
  (s.slaves.map SlaveThread.numClientsKeepalive).sum < conf.maxNumClientsKeepalive

/-- `SendBackMsg_`, called in a state `a` of slave `i`; `mail` is as in `Sending`. -/
def sendBackMsg (conf : ServerConf) (s : Server) (i : ℕ) (a : SlaveThread) (p : ProcedureRef)
    (mail : Bool) : Server :=
  let done := if mail then { a with mailbox := a.mailbox.tail } else a
  match (s.setSlave i { done with sending := none }).sendToScheduler conf p.scheduler
      (.session p.procedure) with
  | some s => s
  | none => s.setSlave i { a with sending := some ⟨p, mail⟩ }

def slaveMail (conf : ServerConf) (env : ClientEnv) (s : Server) (i : ℕ) (a : SlaveThread) :
    Server :=
  match a.mailbox with
  | .readReq m :: mails =>
    s.setSlave i (SlaveThread.handleMsgReadReq conf env { a with mailbox := mails } m)
  | .destruct d :: mails =>
    s.setSlave i (SlaveThread.handleMsgDestruct conf env { a with mailbox := mails } d)
  | .session p noFd :: mails =>
    if noFd then s.setSlave i { a with mailbox := mails, stray := p :: a.stray }
    else if env.resetOk then
      s.setSlave i { a with mailbox := mails, sessions := p :: a.sessions }
    else s.sendBackMsg conf i a p true
  | [] => s

def slaveRead (conf : ServerConf) (env : ClientEnv) (event : EventsDriver.Event) (s : Server)
    (i : ℕ) (ctx : ReadReqCtx) (a : SlaveThread) : Server :=
  if event ≠ .kErr then
    let r := SlaveThread.handleReadReq env ctx
    if r.1 = 0 then
      match (s.setSlave i a).sendToOneWorker conf r.2.client with
      | some s => s
      | none => s.setSlave i (a.releaseClient r.2.client)
    else if 0 < r.1 then s.setSlave i { a with clients := r.2 :: a.clients }
    else s.setSlave i (a.releaseClient r.2.client)
  else s.setSlave i (a.releaseClient ctx.client)

inductive Label
  | accept (m : MsgReadReq)
  | slaveMail (i : ℕ) (env : ClientEnv)
  | slaveRead (i : ℕ) (fd : ℤ) (event : EventsDriver.Event) (env : ClientEnv)
  | slaveTimeout (i : ℕ) (fd : ℤ)
  | slaveSessionEnd (i : ℕ) (p : ProcedureRef)
  | slaveResend (i : ℕ)
  | schedulerReceive (k : ℕ)
  | schedulerTask (k : ℕ) (lost : Bool)
  | schedulerOp (k : ℕ) (writeBack : Bool)
  | schedulerEnd (k : ℕ)
  | schedulerResend (k : ℕ)

def sendDestruct (conf : ServerConf) (s : Server) (k : ℕ) (t : SchedulerThread) (j : ℕ)
    (c : ClientReq) : Server :=
  match (s.setScheduler k (t.endProcedure j)).sendToSlave conf c.idProcedure (.destruct c) with
  | some s => s
  | none => s.setScheduler k { t with sending := true }

def next (conf : ServerConf) (s : Server) : Label → Server
  | .accept m =>
    if s.clientsNotFull conf then
      (s.sendToSlave conf m.idProcedure (.readReq m)).getD s
    else s
  | .slaveMail i env => (s.slaves[i]?).elim s (s.slaveMail conf env i)
  | .slaveRead i fd event env =>
    ((s.slaves[i]?).bind (·.takeClient fd)).elim s
      (fun q => s.slaveRead conf env event i q.1 q.2)
  | .slaveTimeout i fd =>
    ((s.slaves[i]?).bind (·.takeClient fd)).elim s
      (fun q => s.setSlave i (q.2.releaseClient q.1.client))
  | .slaveSessionEnd i p =>
    (s.slaves[i]?).elim s (fun a =>
      s.sendBackMsg conf i { a with sessions := a.sessions.erase p } p false)
  | .slaveResend i =>
    (s.slaves[i]?).elim s (fun a =>
      a.sending.elim s (fun q => s.sendBackMsg conf i a q.procedure q.mail))
  | .schedulerReceive k =>
    (s.schedulers[k]?).elim s (fun t => match t.mailbox with
      | m :: mails => s.setScheduler k { t with mailbox := mails, taskQueue := t.taskQueue ++ [m] }
      | [] => s)
  | .schedulerTask k lost => (s.schedulers[k]?).elim s (fun t => s.setScheduler k (t.runTask lost))
  | .schedulerOp k writeBack =>
    (s.schedulers[k]?).elim s (fun t => t.current.elim s (fun q =>
      ((s.setScheduler k { t with running := none }).sendToSlave conf q.2.idProcedure
        (.session ⟨k, q.1⟩ (writeBack && q.2.fdClient < 0))).getD s))
  | .schedulerEnd k =>
    (s.schedulers[k]?).elim s (fun t =>
      t.current.elim s (fun q => s.sendDestruct conf k t q.1 q.2))
  | .schedulerResend k =>
    (s.schedulers[k]?).elim s (fun t =>
      t.current.elim s (fun q => s.sendDestruct conf k t q.1 q.2))

def SlaveFree (s : Server) (i : ℕ) (c : SlaveThread → Bool) : Prop :=
  (s.slaves[i]?).any (fun a => a.sending.isNone && c a) = true

def SchedulerIs (s : Server) (k : ℕ) (c : SchedulerThread → Bool) : Prop :=
  (s.schedulers[k]?).any c = true

instance (s : Server) (i : ℕ) (c : SlaveThread → Bool) : Decidable (s.SlaveFree i c) :=
  inferInstanceAs (Decidable (_ = true))

instance (s : Server) (k : ℕ) (c : SchedulerThread → Bool) : Decidable (s.SchedulerIs k c) :=
  inferInstanceAs (Decidable (_ = true))

def Enabled (s : Server) : Label → Prop
  | .accept _ => True
  | .slaveMail i _ => s.SlaveFree i (fun a => !a.mailbox.isEmpty)
  | .slaveRead i fd _ _ => s.SlaveFree i (fun a => (a.takeClient fd).isSome)
  | .slaveTimeout i fd => s.SlaveFree i (fun a => (a.takeClient fd).isSome)
  | .slaveSessionEnd i p => s.SlaveFree i (fun a => p ∈ a.sessions)
  | .slaveResend i => (s.slaves[i]?).any (fun a => a.sending.isSome) = true
  | .schedulerReceive k => s.SchedulerIs k (fun t => t.running.isNone && !t.mailbox.isEmpty)
  | .schedulerTask k _ => s.SchedulerIs k (fun t => t.running.isNone && !t.taskQueue.isEmpty)
  | .schedulerOp k _ => s.SchedulerIs k (fun t => t.current.isSome && !t.sending)
  | .schedulerEnd k => s.SchedulerIs k (fun t => t.current.isSome && !t.sending)
  | .schedulerResend k => s.SchedulerIs k (fun t => t.current.isSome && t.sending)

instance (s : Server) : ∀ l, Decidable (s.Enabled l)
  | .accept _ => inferInstanceAs (Decidable True)
  | .slaveMail i _ => inferInstanceAs (Decidable (s.SlaveFree i _))
  | .slaveRead i _ _ _ => inferInstanceAs (Decidable (s.SlaveFree i _))
  | .slaveTimeout i _ => inferInstanceAs (Decidable (s.SlaveFree i _))
  | .slaveSessionEnd i _ => inferInstanceAs (Decidable (s.SlaveFree i _))
  | .slaveResend _ => inferInstanceAs (Decidable (_ = true))
  | .schedulerReceive k => inferInstanceAs (Decidable (s.SchedulerIs k _))
  | .schedulerTask k _ => inferInstanceAs (Decidable (s.SchedulerIs k _))
  | .schedulerOp k _ => inferInstanceAs (Decidable (s.SchedulerIs k _))
  | .schedulerEnd k => inferInstanceAs (Decidable (s.SchedulerIs k _))
  | .schedulerResend k => inferInstanceAs (Decidable (s.SchedulerIs k _))

def machine (conf : ServerConf) : Machine Server Label where
  enabled := Enabled
  next := next conf

instance (conf : ServerConf) (s : Server) (l : Label) : Decidable ((machine conf).enabled s l) :=
  inferInstanceAs (Decidable (s.Enabled l))

theorem slave_of_free {s : Server} {i : ℕ} {c : SlaveThread → Bool} (h : s.SlaveFree i c) :
    ∃ a, s.slaves[i]? = some a ∧ a.sending = none ∧ c a = true := by
  unfold SlaveFree at h
  cases hget : s.slaves[i]? with
  | none => simp [hget] at h
  | some a =>
    rw [hget, Option.any_some, Bool.and_eq_true, Option.isNone_iff_eq_none] at h
    exact ⟨a, rfl, h⟩

theorem scheduler_of_is {s : Server} {k : ℕ} {c : SchedulerThread → Bool}
    (h : s.SchedulerIs k c) : ∃ t, s.schedulers[k]? = some t ∧ c t = true := by
  unfold SchedulerIs at h
  cases hget : s.schedulers[k]? with
  | none => simp [hget] at h
  | some t => exact ⟨t, rfl, by simpa [hget] using h⟩

inductive NextCase (conf : ServerConf) (s : Server) : Label → Server → Prop
  | refused (l : Label) : NextCase conf s l s
  | accept {m : MsgReadReq} {s' : Server}
      (hs : s.sendToSlave conf m.idProcedure (.readReq m) = some s') :
      NextCase conf s (.accept m) s'
  | slaveMail {i : ℕ} {env : ClientEnv} {a : SlaveThread} (hget : s.slaves[i]? = some a)
      (hs : a.sending = none) : NextCase conf s (.slaveMail i env) (s.slaveMail conf env i a)
  | slaveRead {i : ℕ} {fd : ℤ} {event : EventsDriver.Event} {env : ClientEnv}
      {a a' : SlaveThread} {ctx : ReadReqCtx} (hget : s.slaves[i]? = some a)
      (ht : a.takeClient fd = some (ctx, a')) :
      NextCase conf s (.slaveRead i fd event env) (s.slaveRead conf env event i ctx a')
  | slaveTimeout {i : ℕ} {fd : ℤ} {a : SlaveThread} {ctx : ReadReqCtx} {a' : SlaveThread}
      (hget : s.slaves[i]? = some a) (ht : a.takeClient fd = some (ctx, a')) :
      NextCase conf s (.slaveTimeout i fd) (s.setSlave i (a'.releaseClient ctx.client))
  | slaveSessionEnd {i : ℕ} {p : ProcedureRef} {a : SlaveThread} (hget : s.slaves[i]? = some a) :
      NextCase conf s (.slaveSessionEnd i p)
        (s.sendBackMsg conf i { a with sessions := a.sessions.erase p } p false)
  | slaveResend {i : ℕ} {a : SlaveThread} {q : Sending} (hget : s.slaves[i]? = some a)
      (hq : a.sending = some q) :
      NextCase conf s (.slaveResend i) (s.sendBackMsg conf i a q.procedure q.mail)
  | schedulerReceive {k : ℕ} {t : SchedulerThread} {m : SchedulerMsg} {mails : List SchedulerMsg}
      (hget : s.schedulers[k]? = some t) (hm : t.mailbox = m :: mails) :
      NextCase conf s (.schedulerReceive k)
        (s.setScheduler k { t with mailbox := mails, taskQueue := t.taskQueue ++ [m] })
  | schedulerTask {k : ℕ} {lost : Bool} {t : SchedulerThread} (hget : s.schedulers[k]? = some t)
      (hrun : t.running = none) :
      NextCase conf s (.schedulerTask k lost) (s.setScheduler k (t.runTask lost))
  | schedulerOp {k : ℕ} {writeBack : Bool} {t : SchedulerThread} {j : ℕ} {c : ClientReq}
      {s' : Server} (hget : s.schedulers[k]? = some t) (hs : t.sending = false)
      (hc : t.current = some (j, c))
      (hsend : (s.setScheduler k { t with running := none }).sendToSlave conf c.idProcedure
        (.session ⟨k, j⟩ (writeBack && c.fdClient < 0)) = some s') :
      NextCase conf s (.schedulerOp k writeBack) s'
  | schedulerEnd {k : ℕ} {t : SchedulerThread} {j : ℕ} {c : ClientReq}
      (hget : s.schedulers[k]? = some t) (hc : t.current = some (j, c)) :
      NextCase conf s (.schedulerEnd k) (s.sendDestruct conf k t j c)
  | schedulerResend {k : ℕ} {t : SchedulerThread} {j : ℕ} {c : ClientReq}
      (hget : s.schedulers[k]? = some t) (hc : t.current = some (j, c)) (hs : t.sending = true) :
      NextCase conf s (.schedulerResend k) (s.sendDestruct conf k t j c)

theorem next_cases {conf : ServerConf} {s : Server} {l : Label} (hl : s.Enabled l) :
    NextCase conf s l (s.next conf l) := by
  cases l with
  | accept m =>
    simp only [next]
    split_ifs
    · cases hs : s.sendToSlave conf m.idProcedure (.readReq m) with
      | none => exact .refused _
      | some s' => exact .accept hs
    · exact .refused _
  | slaveMail i env =>
    obtain ⟨a, hget, hs, -⟩ := slave_of_free hl
    simp only [next, hget, Option.elim_some]
    exact .slaveMail hget hs
  | slaveRead i fd event env =>
    obtain ⟨a, hget, -, hc⟩ := slave_of_free hl
    obtain ⟨⟨ctx, a'⟩, ht⟩ := Option.isSome_iff_exists.mp hc
    simp only [next, hget, Option.bind_some, ht, Option.elim_some]
    exact .slaveRead hget ht
  | slaveTimeout i fd =>
    obtain ⟨a, hget, -, hc⟩ := slave_of_free hl
    obtain ⟨⟨ctx, a'⟩, ht⟩ := Option.isSome_iff_exists.mp hc
    simp only [next, hget, Option.bind_some, ht, Option.elim_some]
    exact .slaveTimeout hget ht
  | slaveSessionEnd i p =>
    obtain ⟨a, hget, -, -⟩ := slave_of_free hl
    simp only [next, hget, Option.elim_some]
    exact .slaveSessionEnd hget
  | slaveResend i =>
    obtain ⟨a, hget, hs⟩ : ∃ a, s.slaves[i]? = some a ∧ a.sending.isSome := by
      simpa [Enabled, Option.any_eq_true] using hl
    obtain ⟨q, hq⟩ := Option.isSome_iff_exists.mp hs
    simp only [next, hget, hq, Option.elim_some]
    exact .slaveResend hget hq
  | schedulerReceive k =>
    obtain ⟨t, hget, -⟩ := scheduler_of_is hl
    simp only [next, hget, Option.elim_some]
    split
    · rename_i m mails hm
      exact .schedulerReceive hget hm
    · exact .refused _
  | schedulerTask k lost =>
    obtain ⟨t, hget, ht⟩ := scheduler_of_is hl
    simp only [Bool.and_eq_true, Option.isNone_iff_eq_none] at ht
    simp only [next, hget, Option.elim_some]
    exact .schedulerTask hget ht.1
  | schedulerOp k writeBack =>
    obtain ⟨t, hget, ht⟩ := scheduler_of_is hl
    simp only [Bool.and_eq_true, Bool.not_eq_true'] at ht
    obtain ⟨⟨j, c⟩, hc⟩ := Option.isSome_iff_exists.mp ht.1
    simp only [next, hget, hc, Option.elim_some]
    cases hs : (s.setScheduler k { t with running := none }).sendToSlave conf c.idProcedure
      (.session ⟨k, j⟩ (writeBack && c.fdClient < 0)) with
    | none => exact .refused _
    | some s' => exact .schedulerOp hget ht.2 hc hs
  | schedulerEnd k =>
    obtain ⟨t, hget, ht⟩ := scheduler_of_is hl
    simp only [Bool.and_eq_true] at ht
    obtain ⟨⟨j, c⟩, hc⟩ := Option.isSome_iff_exists.mp ht.1
    simp only [next, hget, hc, Option.elim_some]
    exact .schedulerEnd hget hc
  | schedulerResend k =>
    obtain ⟨t, hget, ht⟩ := scheduler_of_is hl
    simp only [Bool.and_eq_true] at ht
    obtain ⟨⟨j, c⟩, hc⟩ := Option.isSome_iff_exists.mp ht.1
    simp only [next, hget, hc, Option.elim_some]
    exact .schedulerResend hget hc ht.2

end Server

end Magneto
