import Magneto.EventsDriver

/-!
# Sessions: registering, retrying and finishing the talks of one operation

`Session::ResetTalk_` and `Session::FinishTalk`. What the calls leaving the
session return (the clock, `ConnsMgr::GetFd`, `RegEvent`, the socket) is the
environment of one loop iteration of the agent slave. A session reaches the
events driver and the pool of event contexts through pointers; both are fields
here. `XFC_BUG` only logs in a release build, so it is a log too. The reports
made to the connections manager and the closed descriptors are logged. A remote
is read through its pointer when it is used: what `tmp_remotes_` holds by then is
part of the environment. A pointer beyond its end is taken for no remote.
-/

namespace Magneto

/-- The assertions of the session code, and a null dereference. -/
inductive Bug
  | numTalksDone | invalidFd | talkStatus | endtime | category | nullPointer
  deriving DecidableEq, Repr

structure ConfNormal where
  ctimeoMs : ℤ
  wtimeoMs : ℤ
  rtimeoMs : ℤ
  deriving DecidableEq, Repr

/-- The pair returned by `ConnsMgr::GetFd`, the remote it selected, and the contents of
`tmp_remotes_` from then on. -/
structure GetFdResult where
  fd : ℤ
  needless : Bool
  remote : RemoteRef
  tmpRemotes : List Remote
  deriving DecidableEq, Repr

structure Env where
  now : ℤ
  tmpRemotes : List Remote
  getFd : GetFdResult
  addOk : Bool
  modOk : Bool
  sockIn : IOHelper.SockIn
  sockOut : IOHelper.SockOut
  deriving DecidableEq, Repr

structure Session (P : Protocols) where
  driver : EventsDriver
  poolEventCtxs : EventCtxPool
  talks : List (Talk P)
  numTalksDone : ℕ
  hasFailure : Bool
  reports : List (Remote × Bool)
  closed : List ℤ
  bugs : List Bug

namespace Session

variable {P : Protocols}

/-- Write a talk back; the talks that have the same writer see what became of it. -/
def setTalk (s : Session P) (talk : Talk P) : Session P :=
  { s with talks := (s.talks.map talk.follow).set talk.noTalk talk }

def bug (s : Session P) (b : Bug) : Session P := { s with bugs := s.bugs ++ [b] }

def fail (s : Session P) : Session P := { s with hasFailure := true }

def close (s : Session P) (fd : ℤ) : Session P := { s with closed := s.closed ++ [fd] }

def timeoMs (conf : ConfNormal) (tmpRemotes : List Remote) (talk : Talk P) : ℤ :=
  match talk.remoteIn tmpRemotes with
  | some remote =>
    if talk.status = .kConn then conf.ctimeoMs
    else if talk.status = .kRead then remote.rtimeoMs else remote.wtimeoMs
  | none => if talk.status = .kRead then conf.rtimeoMs else conf.wtimeoMs

/-- Third part of `ResetTalk_`: take a context and register the descriptor. -/
def resetTalkReg (conf : ConfNormal) (env : Env) (tmpRemotes : List Remote) (s : Session P)
    (talk : Talk P) : Session P × Talk P :=
  let c := s.poolEventCtxs.get () ()
  let s := { s with poolEventCtxs := c.2 }
  let timeleft := talk.endtimeMs - env.now
  if timeleft ≤ 0 then (s.fail, { talk with error := .kTimeout })
  else
    let ctx : EventCtx :=
      ⟨c.1.id, talk.fd, min timeleft (timeoMs conf tmpRemotes talk), env.now, talk.noTalk⟩
    let r := s.driver.regEventAdd env.addOk talk.fd
      (if talk.status = .kRead then .kIn else .kOut) ctx ctx.timeleftMs env.now
    let s := { s with driver := r.2 }
    if r.1 then (s, talk)
    else ((s.close talk.fd).fail, { talk with fd := -1, error := .kOther })

/-- Second part of `ResetTalk_`: a retry encodes the request again. -/
def resetTalkEncode (conf : ConfNormal) (env : Env) (tmpRemotes : List Remote) (isRetry : Bool)
    (s : Session P) (talk : Talk P) : Session P × Talk P :=
  match isRetry, talk.protocolWrite, talk.buf with
  | true, some w, some buf =>
    let e := P.encode (P.resetWriter w.val buf)
    let talk := { talk with protocolWrite := some { w with val := e.2 }, encoded := some e.2 }
    if e.1 then resetTalkReg conf env tmpRemotes s talk
    else (s.fail, { talk with error := .kEncode })
  | true, some _, none => (s.bug .nullPointer, talk)
  | _, _, _ => resetTalkReg conf env tmpRemotes s talk

def connStatus (needless : Bool) (category : Talk.Category) : Talk.Status :=
  if needless then (if category = .kReadOnly then .kRead else .kWrite) else .kConn

def resetTalk (conf : ConfNormal) (env : Env) (isRetry : Bool) (s : Session P) (talk : Talk P) :
    Session P × Talk P :=
  if talk.fd = 0 then
    let talk := { talk with
      remote := some env.getFd.remote
      peer := env.getFd.remote.deref env.getFd.tmpRemotes }
    if 0 < env.getFd.fd then
      resetTalkEncode conf env env.getFd.tmpRemotes isRetry s { talk with
        fd := env.getFd.fd
        status := connStatus env.getFd.needless talk.category }
    else (s.fail, { talk with fd := -1, error := .kBroken })
  else if talk.fd < 0 then ((s.bug .invalidFd).fail, talk)
  else
    resetTalkEncode conf env env.tmpRemotes isRetry s talk

def reportStatus (env : Env) (succ : Bool) (s : Session P) (talk : Talk P) :
    Session P × Talk P :=
  match talk.remoteIn env.tmpRemotes with
  | some remote =>
    ({ s with reports := s.reports ++ [(remote, succ)] },
      if succ then talk else { talk with failRemotes := talk.failRemotes ++ [remote] })
  | none => (s, talk)

/-- The retry branch of `FinishTalk`: a new attempt on a new connection. -/
def retryTalk (conf : ConfNormal) (env : Env) (s : Session P) (talk : Talk P) :
    Session P × Talk P :=
  let s := if 0 < talk.fd then s.close talk.fd else s
  let r := resetTalk conf env true s { talk with
    retry := talk.retry - 1
    fd := 0
    error := .kOk
    attempt := .fresh
    past := talk.past ++ [talk.attempt] }
  if r.2.error = .kOk then
    ({ r.1 with numTalksDone := r.1.numTalksDone - 1 }, { r.2 with counted := false })
  else (r.1.fail, r.2)

def finishTalk (conf : ConfNormal) (env : Env) (succ : Bool) (s : Session P) (talk : Talk P) :
    Session P × Talk P × Bool :=
  let s := { s with numTalksDone := s.numTalksDone + 1 }
  let s := if s.talks.length < s.numTalksDone then s.bug .numTalksDone else s
  let r := reportStatus env succ s { talk with counted := true }
  let r :=
    if succ then r
    else if r.2.retry ≠ 0 then retryTalk conf env r.1 r.2
    else (r.1.fail, r.2)
  (r.1, r.2, r.1.numTalksDone = r.1.talks.length)

def resetOne (conf : ConfNormal) (env : Env) (s : Session P) (talk : Talk P) :
    Session P × Talk P :=
  if talk.status = .kEnd then
    ({ s with numTalksDone := s.numTalksDone + 1 }, { talk with counted := true })
  else
    let r := resetTalk conf env false s talk
    if r.2.error ≠ .kOk then
      ({ r.1 with numTalksDone := r.1.numTalksDone + 1 }, { r.2 with counted := true })
    else r

end Session

end Magneto
