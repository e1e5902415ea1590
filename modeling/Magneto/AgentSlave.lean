import Magneto.Session
import Magneto.Lib.Machine

/-!
# The agent slave's work on one session

The three session event handlers, `CheckSession_`, and the places where
`CheckMailbox_`, `CheckEvents_` and `CleanTimeouts_` drive a session. A machine
step is one loop iteration: one talk of `Session::Reset`, one ready event, the
collection of expired contexts by `RemoveTimeouts`, or one expired context. A
descriptor returned by `GetFd` is open in this process for the first time, so
no other talk of the session holds it.
-/

namespace Magneto

variable {P : Protocols}

namespace AgentSlave

open Session (finishTalk)

structure Handled (P : Protocols) where
  more : Bool
  session : Session P
  talk : Talk P

/-- The common `ERROR_HANDLE` block of the three handlers. -/
def errorHandle (s : Session P) (talk : Talk P) (error : ErrorNo) : Handled P :=
  let s := { s with driver := s.driver.regEventDel talk.fd }
  if error ≠ .kOk then ⟨false, s.close talk.fd, { talk with error := error, fd := -1 }⟩
  else ⟨false, s, { talk with error := error }⟩

/-- `CheckEventCtxTimeout_` followed by `RegEvent` with `kModEvent`. -/
def waitMore (env : Env) (timeleftMs : ℤ) (direction : EventsDriver.Direction) (ctx : EventCtx)
    (s : Session P) (talk : Talk P) : Handled P :=
  let c := ctx.checkTimeout env.now timeleftMs
  if !c.1 then errorHandle s talk .kTimeout
  else
    let r := s.driver.regEventMod env.modOk talk.fd direction c.2 c.2.timeleftMs env.now
    if r.1 then ⟨true, { s with driver := r.2 }, talk⟩
    else errorHandle { s with driver := r.2 } talk .kOther

def rtimeoMs (env : Env) (talk : Talk P) : ℤ :=
  (talk.remoteIn env.tmpRemotes).elim 0 Remote.rtimeoMs

def wtimeoMs (env : Env) (talk : Talk P) : ℤ :=
  (talk.remoteIn env.tmpRemotes).elim 0 Remote.wtimeoMs

def connTalk (talk : Talk P) : Talk P :=
  { talk with status := if talk.category = .kReadOnly then .kRead else .kWrite }

def handleSessionEventConn (env : Env) (ctx : EventCtx) (s : Session P) (talk : Talk P) :
    Handled P :=
  waitMore env
    (min (talk.endtimeMs - env.now)
      (if talk.category ≠ .kReadOnly then wtimeoMs env talk else rtimeoMs env talk))
    (if talk.category ≠ .kReadOnly then .kOut else .kIn) ctx s (connTalk talk)

def readTalk (talk : Talk P) (o : ReaderObj P) (inp : IOHelper.SockIn) : Talk P :=
  let r := P.read o.val inp
  { talk with
    protocolRead := some { o with val := r.reader }
    attempt := { talk.attempt with
      touched := true
      broken := r.ret < 0
      ins := talk.attempt.ins ++ [inp]
      received := talk.attempt.received ++ r.got } }

def decodeTalk (talk : Talk P) (o : ReaderObj P) (d : Bool × P.Reader) : Talk P :=
  { talk with
    protocolRead := some { o with val := d.2 }
    attempt := { talk.attempt with decoded := d.1, broken := !d.1 } }

def handleSessionEventRead (env : Env) (ctx : EventCtx) (s : Session P) (talk : Talk P) :
    Handled P :=
  match talk.protocolRead with
  | none => ⟨true, s.bug .nullPointer, talk⟩
  | some o =>
    let r := P.read o.val env.sockIn
    if r.ret = 0 then
      let d := P.decode r.reader
      errorHandle s (decodeTalk (readTalk talk o env.sockIn) o d)
        (if d.1 then .kOk else .kDecode)
    else if 0 < r.ret then waitMore env 0 .kIn ctx s (readTalk talk o env.sockIn)
    else errorHandle s (readTalk talk o env.sockIn) .kBroken

def writeTalk (talk : Talk P) (o : WriterObj P) (out : IOHelper.SockOut) : Talk P :=
  let r := P.write o.val out
  { talk with
    protocolWrite := some { o with val := r.writer }
    attempt := { talk.attempt with
      touched := true
      written := r.ret = 0
      broken := r.ret < 0
      outs := talk.attempt.outs ++ [out]
      sent := talk.attempt.sent ++ r.put } }

/-- The branch of `HandleSessionEventWrite_` that turns to reading the reply. -/
def turnToRead (env : Env) (ctx : EventCtx) (s : Session P) (talk : Talk P) : Handled P :=
  let timeleft := min (talk.endtimeMs - env.now) (rtimeoMs env talk)
  if !(ctx.checkTimeout env.now timeleft).1 then errorHandle s talk .kTimeout
  else
    let s := if talk.endtimeMs ≤ env.now then s.bug .endtime else s
    waitMore env timeleft .kIn ctx s { talk with status := .kRead }

def handleSessionEventWrite (env : Env) (ctx : EventCtx) (s : Session P) (talk : Talk P) :
    Handled P :=
  match talk.protocolWrite with
  | none => ⟨true, s.bug .nullPointer, talk⟩
  | some o =>
    let r := P.write o.val env.sockOut
    if r.ret = 0 then
      if talk.category = .kWriteAndRead then turnToRead env ctx s (writeTalk talk o env.sockOut)
      else
        let s := if talk.category ≠ .kWriteOnly then s.bug .category else s
        errorHandle s (writeTalk talk o env.sockOut) .kOk
    else if 0 < r.ret then waitMore env 0 .kOut ctx s (writeTalk talk o env.sockOut)
    else errorHandle s (writeTalk talk o env.sockOut) .kBroken

def handleSessionEvent (env : Env) (event : EventsDriver.Event) (ctx : EventCtx) (s : Session P)
    (talk : Talk P) : Handled P :=
  if event = .kErr then errorHandle s talk .kBroken
  else
    match talk.status with
    | .kConn => handleSessionEventConn env ctx s talk
    | .kRead => handleSessionEventRead env ctx s talk
    | .kWrite => handleSessionEventWrite env ctx s talk
    | _ => ⟨false, s.bug .talkStatus, talk⟩

def freeEventCtx (s : Session P) (ctx : EventCtx) : Session P :=
  { s with poolEventCtxs := s.poolEventCtxs.put ⟨ctx.id, (), ()⟩ }

def checkSession (conf : ConfNormal) (env : Env) (event : EventsDriver.Event) (ctx : EventCtx)
    (s : Session P) (talk : Talk P) : Session P × Bool :=
  let h := handleSessionEvent env event ctx s talk
  if h.more then (h.session.setTalk h.talk, false)
  else
    let r := finishTalk conf env (h.talk.error = .kOk) (freeEventCtx h.session ctx) h.talk
    (r.1.setTalk r.2.1, r.2.2)

/-- The session part of one iteration of the loop of `CleanTimeouts_`. -/
def cleanTimeout (conf : ConfNormal) (env : Env) (ctx : EventCtx) (s : Session P) (talk : Talk P) :
    Session P × Bool :=
  let r := finishTalk conf env false (s.close talk.fd) { talk with fd := -1 }
  (freeEventCtx (r.1.setTalk r.2.1) ctx, r.2.2)

end AgentSlave

structure Reply (P : Protocols) where
  error : ErrorNo
  session : Session P

/-- Where the slave is in its work on the session. -/
inductive Pc
  | reset (i : ℕ)
  | poll
  | clean (timeouts : List EventCtx)
  deriving DecidableEq, Repr

def Pc.resetting : Pc → Option ℕ
  | .reset i => some i
  | _ => none

def Pc.cleaning : Pc → Option ℕ
  | .clean (ctx :: _) => some ctx.noTalk
  | _ => none

def Pc.cleanRest (timeouts : List EventCtx) : Pc :=
  if timeouts = [] then .poll else .clean timeouts

structure AgentSlave (P : Protocols) where
  session : Session P
  pc : Pc
  sentBack : List (Reply P)
  freed : ℕ

namespace AgentSlave

def sendBackMsg (a : AgentSlave P) (error : ErrorNo) : AgentSlave P :=
  { a with sentBack := a.sentBack ++ [⟨error, a.session⟩] }

def endSession (finish : Bool) (error : ErrorNo) (a : AgentSlave P) : AgentSlave P :=
  if finish then { a.sendBackMsg error with freed := a.freed + 1 } else a

/-- The end of an iteration of `Session::Reset`; `CheckMailbox_` answers a
session whose talks are all done at once, and does not free it. -/
def endReset (i : ℕ) (a : AgentSlave P) : AgentSlave P :=
  if i < a.session.talks.length then { a with pc := .reset i }
  else
    let a := { a with pc := .poll }
    if a.session.numTalksDone = a.session.talks.length then a.sendBackMsg .kBroken else a

def start (ctxs : EventCtxPool) (talks : List (Talk P)) : AgentSlave P :=
  endReset 0 ⟨⟨.empty, ctxs, talks, 0, false, [], [], []⟩, .reset 0, [], 0⟩

inductive Label
  | reset (env : Env)
  | ready (fd : ℤ) (event : EventsDriver.Event) (env : Env)
  | removeTimeouts (fds : List ℤ)
  | cleanTimeout (env : Env)
  deriving DecidableEq, Repr

def Label.env : Label → Option Env
  | .reset env => some env
  | .ready _ _ env => some env
  | .removeTimeouts _ => none
  | .cleanTimeout env => some env

def Fresh (s : Session P) (i : ℕ) (env : Env) : Prop :=
  0 < env.getFd.fd → ∀ t ∈ s.talks, t.noTalk ≠ i → t.fd ≠ env.getFd.fd

instance (s : Session P) (i : ℕ) (env : Env) : Decidable (Fresh s i env) :=
  inferInstanceAs (Decidable (_ → ∀ t ∈ s.talks, _))

def HasTimer (d : EventsDriver) (fd : ℤ) : Prop :=
  ((d fd).bind (·.expireTimeMs)).isSome

instance (d : EventsDriver) (fd : ℤ) : Decidable (HasTimer d fd) :=
  inferInstanceAs (Decidable (_ = true))

def FreshFor (s : Session P) (env : Env) : Option ℕ → Prop
  | some i => Fresh s i env
  | none => False

instance (s : Session P) (env : Env) : ∀ o, Decidable (FreshFor s env o)
  | some i => inferInstanceAs (Decidable (Fresh s i env))
  | none => inferInstanceAs (Decidable False)

def Enabled (a : AgentSlave P) : Label → Prop
  | .reset env => FreshFor a.session env a.pc.resetting
  | .ready fd _ env =>
      a.pc = .poll ∧ FreshFor a.session env ((a.session.driver fd).map (·.ctx.noTalk))
  | .removeTimeouts fds =>
      a.pc = .poll ∧ fds ≠ [] ∧ fds.Nodup ∧ ∀ fd ∈ fds, HasTimer a.session.driver fd
  | .cleanTimeout env => FreshFor a.session env a.pc.cleaning

instance (a : AgentSlave P) : ∀ l, Decidable (Enabled a l)
  | .reset env => inferInstanceAs (Decidable (FreshFor a.session env _))
  | .ready _ _ env => inferInstanceAs (Decidable (_ ∧ FreshFor a.session env _))
  | .removeTimeouts fds => inferInstanceAs (Decidable (_ ∧ _ ∧ _ ∧ ∀ fd ∈ fds, _))
  | .cleanTimeout env => inferInstanceAs (Decidable (FreshFor a.session env _))

def removeTimeouts (d : EventsDriver) : List ℤ → List EventCtx × EventsDriver
  | [] => ([], d)
  | fd :: fds =>
    let r := removeTimeouts (d.regEventDel fd) fds
    ((d fd).elim r.1 (fun slot => slot.ctx :: r.1), r.2)

def next (conf : ConfNormal) (a : AgentSlave P) : Label → AgentSlave P
  | .reset env => match a.pc with
    | .reset i => match a.session.talks[i]? with
      | some talk =>
        let r := Session.resetOne conf env a.session talk
        endReset (i + 1) { a with session := r.1.setTalk r.2 }
      | none => a
    | _ => a
  | .ready fd event env => match a.session.driver fd with
    | some slot => match a.session.talks[slot.ctx.noTalk]? with
      | some talk =>
        let r := checkSession conf env event slot.ctx a.session talk
        endSession r.2 (if r.1.hasFailure then .kPartial else .kOk) { a with session := r.1 }
      | none => { a with session := a.session.bug .nullPointer }
    | none => a
  | .removeTimeouts fds =>
    let r := removeTimeouts a.session.driver fds
    { a with session := { a.session with driver := r.2 }, pc := .clean r.1 }
  | .cleanTimeout env => match a.pc with
    | .clean (ctx :: timeouts) => match a.session.talks[ctx.noTalk]? with
      | some talk =>
        let r := cleanTimeout conf env ctx a.session talk
        endSession r.2 .kPartial
          { a with session := r.1, pc := .cleanRest timeouts }
      | none => { a with session := a.session.bug .nullPointer }
    | _ => a

def machine (P : Protocols) (conf : ConfNormal) : Machine (AgentSlave P) Label where
  enabled := Enabled
  next := next conf

instance (conf : ConfNormal) (a : AgentSlave P) (l : Label) :
    Decidable ((machine P conf).enabled a l) := inferInstanceAs (Decidable (Enabled a l))

end AgentSlave

/-- A vector of talks as `IOBasic` builds it: a writer that is given to a later talk as well
is left as the later `Talk::Assign` leaves it. -/
structure Built (talks : List (Talk P)) : Prop where
  index : ∀ (i : ℕ) (t : Talk P), talks[i]? = some t → t.noTalk = i
  assigned : ∀ (i : ℕ) (t : Talk P), talks[i]? = some t →
    ∃ pools now, ∃ args : Talk.Args P,
      t = Talk.followAll (talks.drop (i + 1)) (Talk.assign pools now args).1
  distinct : talks.Pairwise fun a b => 0 < a.fd → a.fd ≠ b.fd

end Magneto
