import Magneto.SessionRun

/-!
# A talk on its own

A step of the agent slave works on one talk, or takes expired events out of the
driver. A `Solo` is a session of a single talk: the talk, its place in the
slave's loops, its registered event and its part of the logs. Its machine runs
the session code on this one talk; the contexts of events have no identity here.
The `trace` of a talk in a run of the slave are the events that concern it. Work
on another talk concerns it only if the two have the same writer.
-/

namespace Magneto

variable {P : Protocols}

structure Log where
  reports : List (Remote × Bool)
  closed : List ℤ
  bugs : List Bug
  failed : Bool
  deriving DecidableEq, Repr

def Log.empty : Log := ⟨[], [], [], false⟩

def Log.append (a b : Log) : Log :=
  ⟨a.reports ++ b.reports, a.closed ++ b.closed, a.bugs ++ b.bugs, a.failed || b.failed⟩

def Session.logs (s : Session P) : Log := ⟨s.reports, s.closed, s.bugs, s.hasFailure⟩

def EventCtx.anon (ctx : EventCtx) : EventCtx := { ctx with id := 0 }

def EventsDriver.Slot.anon (slot : EventsDriver.Slot) : EventsDriver.Slot :=
  { slot with ctx := slot.ctx.anon }

inductive TalkEvent (W : Type)
  | reset (env : Env)
  | ready (event : EventsDriver.Event) (env : Env)
  | remove
  | expire (env : Env)
  | share (w : W)
  deriving DecidableEq, Repr

def TalkEvent.env {W : Type} : TalkEvent W → Option Env
  | .reset env => some env
  | .ready _ env => some env
  | .remove => none
  | .expire env => some env
  | .share _ => none

structure Solo (P : Protocols) where
  talk : Talk P
  place : Place
  slot : Option EventsDriver.Slot
  log : Log

namespace Solo

def start (talk : Talk P) : Solo P := ⟨talk, .waiting, none, .empty⟩

def session (c : Solo P) : Session P where
  driver := fun fd => if fd = c.talk.fd then c.slot else none
  poolEventCtxs := .empty
  talks := [c.talk]
  numTalksDone := 0
  hasFailure := c.log.failed
  reports := c.log.reports
  closed := c.log.closed
  bugs := c.log.bugs

def of (r : Session P × Talk P) : Solo P :=
  ⟨r.2, .started, (r.1.driver r.2.fd).map EventsDriver.Slot.anon, r.1.logs⟩

def see (w : WriterObj P) (c : Solo P) : Solo P :=
  { c with talk := { c.talk with protocolWrite := c.talk.protocolWrite.map w.follow } }

def next (conf : ConfNormal) (c : Solo P) : TalkEvent (WriterObj P) → Solo P
  | .reset env => .of (Session.resetOne conf env c.session c.talk)
  | .ready event env =>
    c.slot.elim c fun slot =>
      .of (AgentSlave.checkTalk conf env event slot.ctx c.session c.talk)
  | .remove => { c with place := .expiring, slot := none }
  | .expire env => .of (AgentSlave.expireTalk conf env c.session c.talk)
  | .share w => c.see w

def HasTimer (c : Solo P) : Prop := (c.slot.bind (·.expireTimeMs)).isSome

def Enabled (c : Solo P) : TalkEvent (WriterObj P) → Prop
  | .reset _ => c.place = .waiting
  | .ready _ _ => c.place = .started ∧ c.slot.isSome
  | .remove => c.place = .started ∧ c.HasTimer
  | .expire _ => c.place = .expiring
  | .share _ => True

def machine (P : Protocols) (conf : ConfNormal) : Machine (Solo P) (TalkEvent (WriterObj P)) where
  enabled := Enabled
  next := next conf

end Solo

namespace AgentSlave

def ownEvents (a : AgentSlave P) (l : Label) (i : ℕ) : List (TalkEvent (WriterObj P)) :=
  match l with
  | .reset env => if a.pc.resetting = some i then [.reset env] else []
  | .ready fd event env =>
    if (a.session.driver fd).map (·.ctx.noTalk) = some i then [.ready event env] else []
  | .removeTimeouts fds =>
    if some i ∈ fds.map fun fd => (a.session.driver fd).map (·.ctx.noTalk) then [.remove] else []
  | .cleanTimeout env => if a.pc.cleaning = some i then [.expire env] else []

def target (a : AgentSlave P) : Label → Option ℕ
  | .reset _ => a.pc.resetting
  | .ready fd _ _ => (a.session.driver fd).map (·.ctx.noTalk)
  | .removeTimeouts _ => none
  | .cleanTimeout _ => a.pc.cleaning

/-- The writer of a talk, when the step worked on another talk that has the same one. -/
def sharedWrite (a : AgentSlave P) (conf : ConfNormal) (l : Label) (i : ℕ) :
    Option (WriterObj P) :=
  (a.target l).bind fun n =>
    if n = i then none
    else ((next conf a l).session.talks[n]?.bind Talk.protocolWrite).filter fun w =>
      (a.session.talks[i]?.bind Talk.writeId) = some w.id

def eventsOf (a : AgentSlave P) (conf : ConfNormal) (l : Label) (i : ℕ) :
    List (TalkEvent (WriterObj P)) :=
  a.ownEvents l i ++ (a.sharedWrite conf l i).toList.map .share

/-- What a talk sees of a run. -/
def trace (conf : ConfNormal) :
    AgentSlave P → List Label → ℕ → List (TalkEvent (WriterObj P))
  | _, [], _ => []
  | a, l :: ls, i => a.eventsOf conf l i ++ trace conf (next conf a l) ls i

end AgentSlave

end Magneto
