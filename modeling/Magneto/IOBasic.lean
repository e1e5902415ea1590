import Magneto.AgentSlave

/-!
# Operations of a biz procedure

`IOBasicTPD` and the part of `BizProcedure` it works on: the vectors of talks
taken since the last `FreeTalks`, the service cache and the client descriptor.
An operation builds its talks, posts the session to the agent slave and is
suspended; the slave works on the talks in place, and its reply resumes the
operation, which files the connections and returns the code of the reply. A writer
that the pool was given twice may be in several talks and in the pool at once; each
of them sees what another one made of it.

`returns` is a history of what the operations returned and, for those that were
resumed, of the session they were handed back; `everFailed` records whether
`has_failure_` was set in some state of the session.
-/

namespace Magneto

inductive Op (P : Protocols)
  | writes (reqs : List (Service × Option P.Buf))
  | reads (services : List Service)
  | talks (reqs : List (Service × Option P.Buf))
  | write (service : Service) (buf : P.Buf)
  | read (service : Service)
  | simpleTalk (service : Service) (buf : P.Buf)
  | writeBack (buf : P.Buf)

structure CachedFd where
  no : ℕ
  fd : ℤ
  remote : Option RemoteRef
  -- history: the remote that `fd` was opened to
  peer : Option Remote
  deriving DecidableEq, Repr

abbrev ServiceCache := List CachedFd

namespace ServiceCache

def fds (cache : ServiceCache) : List ℤ := cache.map CachedFd.fd

/-- `GetFdFromServiceCache`: the entry is taken out of the cache. -/
def getFd (cache : ServiceCache) (service : Service) : ℤ × Option RemoteRef × ServiceCache :=
  match cache.find? (fun e => e.no = service.no) with
  | some e => (e.fd, e.remote, cache.eraseP (fun e => e.no = service.no))
  | none => (0, none, cache)

def peer (cache : ServiceCache) (service : Service) : Option Remote :=
  (cache.find? (fun e => e.no = service.no)).bind CachedFd.peer

/-- `InsertFdIntoServiceCache`: an existing entry is kept. -/
def insertFd (cache : ServiceCache) (e : CachedFd) : ServiceCache :=
  if cache.any (fun e' => e'.no = e.no) then cache else e :: cache

def invalidFd (cache : ServiceCache) (no : ℕ) : ServiceCache :=
  cache.eraseP (fun e => e.no = no)

variable {P : Protocols}

def fileTalk (cache : ServiceCache) (t : Talk P) : ServiceCache :=
  match t.service with
  | some service =>
    if 0 < t.fd then cache.insertFd ⟨service.no, t.fd, t.remote, t.peer⟩
    else cache.invalidFd service.no
  | none => cache

def fileTalks (cache : ServiceCache) (talks : List (Talk P)) : ServiceCache :=
  talks.foldl fileTalk cache

end ServiceCache

structure Suspended (P : Protocols) where
  op : Op P
  agent : AgentSlave P
  everFailed : Bool

structure OpReturn (P : Protocols) where
  op : Op P
  ret : ErrorNo
  session : Option (Session P)
  everFailed : Bool

structure BizProcedure (P : Protocols) where
  pools : PoolProtocols P
  tmpPoolTalks : List (List (Talk P))
  serviceCache : ServiceCache
  fdClient : ℤ
  protocolRead : Protocol.Category
  waiting : Option (Suspended P)
  returns : List (OpReturn P)

namespace BizProcedure

variable {P : Protocols}

def init (pools : PoolProtocols P) (fdClient : ℤ) (protocolRead : Protocol.Category) :
    BizProcedure P :=
  ⟨pools, [], [], fdClient, protocolRead, none, []⟩

def assignTalks (category : Talk.Category) (timeoMs now : ℤ) :
    List (Service × Option P.Buf) → ℕ → ServiceCache → PoolProtocols P →
      List (Talk P) × ServiceCache × PoolProtocols P
  | [], _, cache, pools => ([], cache, pools)
  | (service, buf) :: reqs, noTalk, cache, pools =>
    let c := cache.getFd service
    let r := Talk.assign pools now
      ⟨noTalk, category, some service, service.protocolCategory, buf, timeoMs, c.1, c.2.1,
        cache.peer service⟩
    let rest := assignTalks category timeoMs now reqs (noTalk + 1) c.2.2 r.2
    (Talk.followAll rest.1 r.1 :: rest.1, rest.2)

/-- The vectors taken since the last `FreeTalks`, once new talks have taken their writers. -/
def keepTalks (talks : List (Talk P)) (vectors : List (List (Talk P))) : List (List (Talk P)) :=
  vectors.map fun ts => ts.map (Talk.followAll talks)

def buildServiceTalks (b : BizProcedure P) (category : Talk.Category)
    (reqs : List (Service × Option P.Buf)) (timeoMs now : ℤ) : List (Talk P) × BizProcedure P :=
  let r := assignTalks category timeoMs now reqs 0 b.serviceCache b.pools
  (r.1, { b with
    pools := r.2.2, serviceCache := r.2.1
    tmpPoolTalks := keepTalks r.1 b.tmpPoolTalks ++ [r.1] })

def buildWriteBack (b : BizProcedure P) (buf : P.Buf) (timeoMs now : ℤ) :
    List (Talk P) × BizProcedure P :=
  let r := Talk.assign b.pools now
    ⟨0, .kWriteOnly, none, b.protocolRead, some buf, timeoMs, b.fdClient, none, none⟩
  ([r.1], { b with
    pools := r.2, tmpPoolTalks := keepTalks [r.1] b.tmpPoolTalks ++ [[r.1]] })

def buildTalks (b : BizProcedure P) (op : Op P) (timeoMs now : ℤ) :
    List (Talk P) × BizProcedure P :=
  match op with
  | .writes reqs => b.buildServiceTalks .kWriteOnly reqs timeoMs now
  | .reads services =>
    b.buildServiceTalks .kReadOnly (services.map fun service => (service, none)) timeoMs now
  | .talks reqs => b.buildServiceTalks .kWriteAndRead reqs timeoMs now
  | .write service buf => b.buildServiceTalks .kWriteOnly [(service, some buf)] timeoMs now
  | .read service => b.buildServiceTalks .kReadOnly [(service, none)] timeoMs now
  | .simpleTalk service buf => b.buildServiceTalks .kWriteAndRead [(service, some buf)] timeoMs now
  | .writeBack buf => b.buildWriteBack buf timeoMs now

/-- The operations that return at once when their talk does not encode. -/
def checksEncode : Op P → Bool
  | .write _ _ => true
  | .simpleTalk _ _ => true
  | .writeBack _ => true
  | _ => false

def headError (talks : List (Talk P)) : ErrorNo := (talks.head?.map Talk.error).getD .kOk

def returnAtOnce (b : BizProcedure P) (op : Op P) (ret : ErrorNo) : BizProcedure P :=
  { b with returns := b.returns ++ [⟨op, ret, none, false⟩] }

/-- An operation up to its `swapcontext`; `accepted` is the answer of the slave's mailbox. -/
def call (b : BizProcedure P) (op : Op P) (timeoMs now : ℤ) (accepted : Bool)
    (ctxs : EventCtxPool) : BizProcedure P :=
  let r := b.buildTalks op timeoMs now
  if checksEncode op ∧ headError r.1 ≠ .kOk then r.2.returnAtOnce op (headError r.1)
  else if accepted then { r.2 with waiting := some ⟨op, AgentSlave.start ctxs r.1, false⟩ }
  else r.2.returnAtOnce op .kQueueBusy

def fileOp (b : BizProcedure P) (op : Op P) (talks : List (Talk P)) : BizProcedure P :=
  match op with
  | .writeBack _ =>
    if (talks.head?.map Talk.fd).getD 0 ≤ 0 then { b with fdClient := -1 } else b
  | _ => { b with serviceCache := b.serviceCache.fileTalks talks }

/-- The pools once the slave has worked on the talks. -/
def followTalks (pools : PoolProtocols P) (talks : List (Talk P)) : PoolProtocols P :=
  talks.foldl (fun pools t => t.protocolWrite.elim pools pools.followWrite) pools

def resume (b : BizProcedure P) : BizProcedure P :=
  match b.waiting with
  | some p => match p.agent.sentBack with
    | reply :: _ =>
      let b := b.fileOp p.op reply.session.talks
      { b with
        pools := followTalks b.pools reply.session.talks
        tmpPoolTalks :=
          keepTalks reply.session.talks b.tmpPoolTalks.dropLast ++ [reply.session.talks]
        waiting := none
        returns := b.returns ++ [⟨p.op, reply.error, some reply.session, p.everFailed⟩] }
    | [] => b
  | none => b

def freeTalk (pools : PoolProtocols P) (t : Talk P) : PoolProtocols P :=
  let pools := match t.protocolWrite with
    | some w => pools.freeWrite w
    | none => pools
  match t.protocolRead with
  | some r => pools.freeRead r
  | none => pools

def freeTalks (b : BizProcedure P) : BizProcedure P :=
  { b with
    pools := b.tmpPoolTalks.flatten.foldl freeTalk b.pools
    tmpPoolTalks := [] }

inductive Label (P : Protocols)
  | call (op : Op P) (timeoMs now : ℤ) (accepted : Bool) (ctxs : EventCtxPool)
  | agent (l : AgentSlave.Label)
  | resume
  | freeTalks

/-- `GetFd` does not return a descriptor that is open in the service cache. -/
def FreshForCache (cache : ServiceCache) (env : Env) : Prop :=
  0 < env.getFd.fd → env.getFd.fd ∉ cache.fds

instance (cache : ServiceCache) (env : Env) : Decidable (FreshForCache cache env) :=
  inferInstanceAs (Decidable (_ → _))

def AgentEnabled (cache : ServiceCache) (l : AgentSlave.Label) : Option (Suspended P) → Prop
  | some p => AgentSlave.Enabled p.agent l ∧ ∀ env ∈ l.env, FreshForCache cache env
  | none => False

def Replied : Option (Suspended P) → Prop
  | some p => p.agent.sentBack.isEmpty = false
  | none => False

instance (cache : ServiceCache) (l : AgentSlave.Label) :
    ∀ w : Option (Suspended P), Decidable (AgentEnabled cache l w)
  | some p => inferInstanceAs (Decidable (AgentSlave.Enabled p.agent l ∧ ∀ env ∈ l.env, _))
  | none => inferInstanceAs (Decidable False)

instance : ∀ w : Option (Suspended P), Decidable (Replied w)
  | some _ => inferInstanceAs (Decidable (_ = false))
  | none => inferInstanceAs (Decidable False)

def Enabled (b : BizProcedure P) : Label P → Prop
  | .call _ _ _ _ _ => b.waiting.isNone
  | .agent l => AgentEnabled b.serviceCache l b.waiting
  | .resume => Replied b.waiting
  | .freeTalks => b.waiting.isNone

instance (b : BizProcedure P) : ∀ l, Decidable (Enabled b l)
  | .call _ _ _ _ _ => inferInstanceAs (Decidable (_ = true))
  | .agent l => inferInstanceAs (Decidable (AgentEnabled b.serviceCache l b.waiting))
  | .resume => inferInstanceAs (Decidable (Replied b.waiting))
  | .freeTalks => inferInstanceAs (Decidable (_ = true))

def agentStep (conf : ConfNormal) (b : BizProcedure P) (l : AgentSlave.Label) : BizProcedure P :=
  match b.waiting with
  | some p =>
    let agent := AgentSlave.next conf p.agent l
    { b with waiting := some ⟨p.op, agent, p.everFailed || agent.session.hasFailure⟩ }
  | none => b

def next (conf : ConfNormal) (b : BizProcedure P) : Label P → BizProcedure P
  | .call op timeoMs now accepted ctxs => b.call op timeoMs now accepted ctxs
  | .agent l => b.agentStep conf l
  | .resume => b.resume
  | .freeTalks => b.freeTalks

def machine (P : Protocols) (conf : ConfNormal) : Machine (BizProcedure P) (Label P) where
  enabled := Enabled
  next := next conf

instance (conf : ConfNormal) (b : BizProcedure P) (l : Label P) :
    Decidable ((machine P conf).enabled b l) := inferInstanceAs (Decidable (Enabled b l))

end BizProcedure

end Magneto
