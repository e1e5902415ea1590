import Magneto.SessionRun
import Magneto.Server

/-!
# The pools of an agent slave

All sessions and clients that one slave works on, with the two pools they share:
`pool_event_ctxs_` and `pool_sessions_`. A step is one mail, one ready event, one
talk of `Session::Reset`, the collection of expired contexts of a session or of
clients, or one expired context; a call of the slave's loop is completed when no
step of it is left.

The table of the events driver is kept by owner: a session has its own part and
the `kReadReq` contexts are a list. A descriptor is open once in the process, so
that the events of two owners never meet.
-/

namespace Magneto

variable {P : Protocols}

structure ClientCtx where
  id : ℕ
  ctx : ReadReqCtx

def AgentSlave.withPool (a : AgentSlave P) (ctxs : EventCtxPool) : AgentSlave P :=
  { a with session := { a.session with poolEventCtxs := ctxs } }

def AgentSlave.Label.isReady : AgentSlave.Label → Bool
  | .ready _ _ _ => true
  | _ => false

structure Slave (P : Protocols) where
  poolEventCtxs : EventCtxPool
  poolSessions : ObjectPool Unit Unit
  poolRead : ObjectPool Protocol.Category Unit
  sessions : List (ℕ × AgentSlave P)
  clients : List ClientCtx
  expired : List ClientCtx
  numClientsKeepalive : ℤ

namespace Slave

def init : Slave P := ⟨.empty, .empty, .empty, [], [], [], 0⟩

def freeEventCtx (x : Slave P) (id : ℕ) : Slave P :=
  { x with poolEventCtxs := x.poolEventCtxs.put ⟨id, (), ()⟩ }

def freeRead (x : Slave P) (o : PoolObj Protocol.Category Unit) : Slave P :=
  { x with poolRead := x.poolRead.put o }

def releaseClient (x : Slave P) (c : ClientReq) : Slave P :=
  { x with numClientsKeepalive := x.numClientsKeepalive - 1 }.freeRead c.protocolRead

def regClient (env : ClientEnv) (x : Slave P) (c : ClientReq) (timeleftMs : ℤ) : Slave P :=
  let o := x.poolEventCtxs.get () ()
  let x := { x with poolEventCtxs := o.2 }
  if env.addOk then { x with clients := ⟨o.1.id, c, timeleftMs, env.now⟩ :: x.clients }
  else (x.releaseClient c).freeEventCtx o.1.id

def handleMsgReadReq (conf : ServerConf) (env : ClientEnv) (x : Slave P) (m : MsgReadReq) :
    Slave P :=
  let o := x.poolRead.get m.category ()
  regClient env
    { x with numClientsKeepalive := x.numClientsKeepalive + 1, poolRead := o.2 }
    ⟨m.idProcedure, m.fdClient, m.fdClientStarttimeSec, o.1⟩ conf.rtimeoMs

/-- `HandleMsgDestruct_`, after the cached connections were given back. -/
def handleMsgDestruct (conf : ServerConf) (env : ClientEnv) (x : Slave P) (d : ClientReq) :
    Slave P :=
  if d.fdClient ≤ 0 then x.releaseClient d
  else
    let timeleftMs := min
      ((d.fdClientStarttimeSec + conf.clientKeepaliveSec - env.nowSec + 1) * 1000) conf.rtimeoMs
    if timeleftMs ≤ 0 then x.releaseClient d else regClient env x d timeleftMs

/-- `CheckEvents_` on an event of a `kReadReq` context; `x` is the slave without it and `sent`
tells whether a worker accepted the request. -/
def checkReadReq (env : ClientEnv) (event : EventsDriver.Event) (sent : Bool) (x : Slave P)
    (c : ClientCtx) : Slave P :=
  if event ≠ .kErr then
    let r := SlaveThread.handleReadReq env c.ctx
    if r.1 = 0 then
      if sent then x.freeEventCtx c.id else (x.releaseClient r.2.client).freeEventCtx c.id
    else if 0 < r.1 then { x with clients := ⟨c.id, r.2⟩ :: x.clients }
    else (x.releaseClient r.2.client).freeEventCtx c.id
  else (x.releaseClient c.ctx.client).freeEventCtx c.id

/-- `CheckMailbox_` on a `MsgSession`, up to the loop of `Session::Reset`. -/
def getSession (x : Slave P) (talks : List (Talk P)) : Slave P :=
  let o := x.poolSessions.get () ()
  { x with
    poolSessions := o.2
    sessions := (o.1.id, AgentSlave.start x.poolEventCtxs talks) :: x.sessions }

def setSession (x : Slave P) (sid : ℕ) (rest : List (ℕ × AgentSlave P)) (a : AgentSlave P) :
    Slave P :=
  let x := { x with poolEventCtxs := a.session.poolEventCtxs }
  if a.freed = 0 then { x with sessions := (sid, a) :: rest }
  else { x with sessions := rest, poolSessions := x.poolSessions.put ⟨sid, (), ()⟩ }

def isClient (fd : ℤ) (c : ClientCtx) : Bool := c.ctx.client.fdClient = fd

def removeTimeouts (x : Slave P) : List ℤ → Slave P
  | [] => x
  | fd :: fds => match x.clients.find? (isClient fd) with
    | some c => removeTimeouts
        { x with clients := x.clients.eraseP (isClient fd), expired := x.expired ++ [c] } fds
    | none => removeTimeouts x fds

inductive Label (P : Protocols)
  | mailSession (talks : List (Talk P))
  | session (sid : ℕ) (l : AgentSlave.Label)
  | mailReadReq (m : MsgReadReq) (env : ClientEnv)
  | mailDestruct (d : ClientReq) (env : ClientEnv)
  | readReq (fd : ℤ) (event : EventsDriver.Event) (env : ClientEnv) (sent : Bool)
  | removeTimeouts (fds : List ℤ)
  | cleanTimeout

def Idle (x : Slave P) : Prop := (∀ p ∈ x.sessions, p.2.pc = .poll) ∧ x.expired = []

def session (x : Slave P) (sid : ℕ) : Option (AgentSlave P) :=
  (x.sessions.find? (fun p => p.1 = sid)).map fun p => p.2.withPool x.poolEventCtxs

def next (conf : ConfNormal) (serverConf : ServerConf) (x : Slave P) : Label P → Slave P
  | .mailSession talks => x.getSession talks
  | .session sid l => (x.session sid).elim x fun a =>
      x.setSession sid (x.sessions.eraseP (fun p => p.1 = sid)) (AgentSlave.next conf a l)
  | .mailReadReq m env => handleMsgReadReq serverConf env x m
  | .mailDestruct d env => handleMsgDestruct serverConf env x d
  | .readReq fd event env sent => (x.clients.find? (isClient fd)).elim x fun c =>
      checkReadReq env event sent { x with clients := x.clients.eraseP (isClient fd) } c
  | .removeTimeouts fds => x.removeTimeouts fds
  | .cleanTimeout => match x.expired with
    | c :: cs => ({ x with expired := cs }.releaseClient c.ctx.client).freeEventCtx c.id
    | [] => x

def Enabled (x : Slave P) : Label P → Prop
  | .mailSession talks => x.Idle ∧ Built talks
  | .session sid l =>
      (∃ a ∈ x.session sid, AgentSlave.Enabled a l) ∧ (l.isReady = true → x.Idle)
  | .removeTimeouts _ => True
  | .cleanTimeout => True
  | _ => x.Idle

def machine (P : Protocols) (conf : ConfNormal) (serverConf : ServerConf) :
    Machine (Slave P) (Label P) where
  enabled := Enabled
  next := next conf serverConf

def Registered (x : Slave P) (id : ℕ) : Prop :=
  (∃ p ∈ x.sessions, ∃ fd slot, p.2.session.driver fd = some slot ∧ slot.ctx.id = id) ∨
    ∃ c ∈ x.clients, c.id = id

def Referenced (x : Slave P) (sid : ℕ) : Prop :=
  ∃ a, (sid, a) ∈ x.sessions ∧ a.sentBack = [] ∧ ∃ fd, (a.session.driver fd).isSome

/-- Every object that was taken from its pool is in use, or back once. -/
structure Conserved (x : Slave P) : Prop where
  ctxs : ∀ id ∈ x.poolEventCtxs.taken,
    x.Registered id ∧ id ∉ ObjectPool.ids x.poolEventCtxs.free ∨
      (ObjectPool.ids x.poolEventCtxs.free).count id = 1 ∧ ¬ x.Registered id
  sessions : ∀ sid ∈ x.poolSessions.taken,
    x.Referenced sid ∧ sid ∉ ObjectPool.ids x.poolSessions.free ∨
      (ObjectPool.ids x.poolSessions.free).count sid = 1 ∧ ¬ x.Referenced sid

end Slave

end Magneto
