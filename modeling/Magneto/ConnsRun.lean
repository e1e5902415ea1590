import Magneto.ConnsMgr
import Magneto.Lib.Custody
import Magneto.Lib.Machine

/-!
# Runs of a connections manager with its users

The talks and the cached pairs that use one `ConnsMgr`. A step is one call of
the manager, or one move of a descriptor between a talk and a service cache; the
talks and caches of any number of procedures are interleaved. `opened` is the
table of open descriptors with the address each was connected to. `FinishTalk` is
called for a failed talk with its connection closed, and is split at its call of
`ResetTalk_`.

A report of `FinishTalk` is logged with the address its talk was connected to
and the address it hit.
-/

namespace Magneto

inductive TalkPhase
  | start | driven | done | left
  deriving DecidableEq, Repr

structure TalkConn where
  service : Service
  retry : ℕ
  failRemotes : List Remote
  fd : ℤ
  remote : Option RemoteRef
  phase : TalkPhase
  deriving DecidableEq, Repr

def TalkConn.connect (t : TalkConn) (ref : RemoteRef) (fd : ℤ) : TalkConn :=
  if 0 < fd then { t with remote := some ref, fd := fd, phase := .driven }
  else { t with remote := some ref, fd := -1, phase := .done }

def TalkConn.finish (t : TalkConn) (succ : Bool) (hit : Option Remote) : TalkConn :=
  if succ then { t with phase := .done }
  else
    let t := { t with failRemotes := t.failRemotes ++ hit.toList }
    if t.retry ≠ 0 then { t with retry := t.retry - 1, fd := 0, phase := .start }
    else { t with fd := -1, phase := .done }

structure CachedConn where
  service : Service
  fd : ℤ
  remote : RemoteRef
  deriving DecidableEq, Repr

structure StatusReport where
  peer : Option Addr
  hit : Option Addr
  deriving DecidableEq, Repr

structure ConnsSystem where
  mgr : ConnsMgr
  opened : ℤ → Option Addr
  talks : List TalkConn
  cached : List CachedConn
  reports : List StatusReport

namespace ConnsSystem

def init (longConnKeepaliveSec : ℤ) : ConnsSystem :=
  ⟨.new longConnKeepaliveSec, fun _ => none, [], [], []⟩

inductive Label
  | assign (service : Service)
  | getFd (k rand : ℕ) (env : ConnEnv)
  | abort (k : ℕ) (closes : Bool)
  | finish (k : ℕ) (succ : Bool)
  | file (k : ℕ)
  | leave (k : ℕ)
  | reuse (j : ℕ)
  | lose (j : ℕ)
  | freeFd (j : ℕ) (now : ℤ)
  | configRemotes (remotes : List Remote)
  deriving DecidableEq, Repr

def close (opened : ℤ → Option Addr) (closed : Option ℤ) : ℤ → Option Addr :=
  fun fd => if closed = some fd then none else opened fd

def openedBy (opened : ℤ → Option Addr) (r : PoolGet) : ℤ → Option Addr :=
  fun fd => if r.connected.isSome ∧ 0 < r.fd ∧ fd = r.fd then r.connected
    else close opened r.closed fd

def getFdFor (s : ConnsSystem) (k rand : ℕ) (env : ConnEnv) :
    Option (TalkConn × RemoteRef × PoolGet × ConnsMgr) :=
  (s.talks[k]?).bind fun t =>
    (s.mgr.getFd t.service t.failRemotes rand env).map fun r => (t, r)

def remoteOf (s : ConnsSystem) (t : TalkConn) : Option Remote :=
  t.remote.bind (RemoteRef.deref s.mgr.tmpRemotes)

def next (s : ConnsSystem) : Label → ConnsSystem
  | .assign service =>
    { s with talks := s.talks ++ [⟨service, service.retry, [], 0, none, .start⟩] }
  | .getFd k rand env => match s.getFdFor k rand env with
    | some (t, ref, r, mgr) =>
      { s with
        mgr := mgr
        opened := openedBy s.opened r
        talks := s.talks.set k (t.connect ref r.fd) }
    | none => s
  | .abort k closes => match s.talks[k]? with
    | some t =>
      if closes then
        { s with
          opened := close s.opened (some t.fd)
          talks := s.talks.set k { t with fd := -1, phase := .done } }
      else { s with talks := s.talks.set k { t with phase := .done } }
    | none => s
  | .finish k succ => match s.talks[k]? with
    | some t =>
      let hit := s.remoteOf t
      { s with
        mgr := hit.elim s.mgr (fun remote => s.mgr.reportStatus remote succ)
        opened := if succ then s.opened else close s.opened (some t.fd)
        talks := s.talks.set k (t.finish succ hit)
        reports := s.reports ++ [⟨s.opened t.fd, hit.map Remote.addr⟩] }
    | none => s
  | .file k => match s.talks[k]? with
    | some t =>
      { s with
        talks := s.talks.set k { t with fd := 0, phase := .left }
        cached := s.cached ++ t.remote.toList.map (⟨t.service, t.fd, ·⟩) }
    | none => s
  | .leave k => match s.talks[k]? with
    | some t => { s with talks := s.talks.set k { t with fd := 0, phase := .left } }
    | none => s
  | .reuse j => match s.cached[j]? with
    | some c =>
      { s with
        talks := s.talks ++ [⟨c.service, c.service.retry, [], c.fd, some c.remote, .driven⟩]
        cached := s.cached.set j { c with fd := 0 } }
    | none => s
  | .lose j => match s.cached[j]? with
    | some c => { s with cached := s.cached.set j { c with fd := 0 } }
    | none => s
  | .freeFd j now => match s.cached[j]? with
    | some c =>
      let r := (c.remote.deref s.mgr.tmpRemotes).elim (none, s.mgr)
        (fun remote => s.mgr.freeFd remote c.fd now)
      { s with
        mgr := r.2
        opened := close s.opened r.1
        cached := s.cached.set j { c with fd := 0 } }
    | none => s
  | .configRemotes remotes => { s with mgr := s.mgr.configRemotes remotes }

def InPhase (s : ConnsSystem) (k : ℕ) (phase : TalkPhase) : Prop :=
  (s.talks[k]?).map TalkConn.phase = some phase

def InCache (s : ConnsSystem) (j : ℕ) : Prop := 0 < ((s.cached[j]?).map CachedConn.fd).getD 0

def Connects (opened : ℤ → Option Addr) :
    Option (TalkConn × RemoteRef × PoolGet × ConnsMgr) → Prop
  | some (_, _, r, _) =>
    r.connected.isSome → 0 < r.fd → close opened r.closed r.fd = none
  | none => False

def Enabled (s : ConnsSystem) : Label → Prop
  | .assign _ => True
  | .getFd k rand env => s.InPhase k .start ∧ Connects s.opened (s.getFdFor k rand env)
  | .abort k _ => s.InPhase k .driven
  | .finish k _ => s.InPhase k .driven
  | .file k => s.InPhase k .done ∧ 0 < ((s.talks[k]?).map TalkConn.fd).getD 0
  | .leave k => s.InPhase k .done
  | .reuse j => s.InCache j
  | .lose j => s.InCache j
  | .freeFd j _ => s.InCache j
  | .configRemotes _ => True

instance (opened : ℤ → Option Addr) : ∀ o, Decidable (Connects opened o)
  | some (_, _, r, _) => inferInstanceAs (Decidable (r.connected.isSome → 0 < r.fd → _))
  | none => inferInstanceAs (Decidable False)

instance (s : ConnsSystem) (k : ℕ) (phase : TalkPhase) : Decidable (s.InPhase k phase) :=
  inferInstanceAs (Decidable (_ = _))

instance (s : ConnsSystem) (j : ℕ) : Decidable (s.InCache j) :=
  inferInstanceAs (Decidable (_ < _))

instance (s : ConnsSystem) : ∀ l, Decidable (s.Enabled l)
  | .assign _ => inferInstanceAs (Decidable True)
  | .getFd k _ _ => inferInstanceAs (Decidable (s.InPhase k .start ∧ _))
  | .abort k _ => inferInstanceAs (Decidable (s.InPhase k .driven))
  | .finish k _ => inferInstanceAs (Decidable (s.InPhase k .driven))
  | .file k => inferInstanceAs (Decidable (s.InPhase k .done ∧ _))
  | .leave k => inferInstanceAs (Decidable (s.InPhase k .done))
  | .reuse j => inferInstanceAs (Decidable (s.InCache j))
  | .lose j => inferInstanceAs (Decidable (s.InCache j))
  | .freeFd j _ => inferInstanceAs (Decidable (s.InCache j))
  | .configRemotes _ => inferInstanceAs (Decidable True)

def machine : Machine ConnsSystem Label where
  enabled := Enabled
  next := next

instance (s : ConnsSystem) (l : Label) : Decidable (machine.enabled s l) :=
  inferInstanceAs (Decidable (s.Enabled l))

/-- The references that will be followed: those of open connections. -/
def liveRefs (s : ConnsSystem) : List RemoteRef :=
  (s.talks.filter (0 < ·.fd)).filterMap TalkConn.remote ++
    (s.cached.filter (0 < ·.fd)).map CachedConn.remote

def SameAddr (tmp tmp' : List Remote) (ref : RemoteRef) : Prop :=
  (ref.deref tmp').map Remote.addr = (ref.deref tmp).map Remote.addr

instance (tmp tmp' : List Remote) (ref : RemoteRef) : Decidable (SameAddr tmp tmp' ref) :=
  inferInstanceAs (Decidable (_ = _))

/-- When `GetFd` refills `tmp_remotes_`, every reference that will be followed still denotes
a remote of the same address. -/
def RefsKept (s : ConnsSystem) : Label → Prop
  | .getFd k _ _ => ∀ t ∈ s.talks[k]?, t.service.serviceStrategy = .kWeight →
      s.mgr.unhealthyGuys ≠ [] → ∀ ref ∈ s.liveRefs,
        SameAddr s.mgr.tmpRemotes (ConnsMgr.refill t.service t.failRemotes) ref
  | _ => True

instance (s : ConnsSystem) : ∀ l, Decidable (s.RefsKept l)
  | .getFd k _ _ => inferInstanceAs (Decidable (∀ t ∈ s.talks[k]?, _ → _ → _))
  | .assign _ => inferInstanceAs (Decidable True)
  | .abort _ _ => inferInstanceAs (Decidable True)
  | .finish _ _ => inferInstanceAs (Decidable True)
  | .file _ => inferInstanceAs (Decidable True)
  | .leave _ => inferInstanceAs (Decidable True)
  | .reuse _ => inferInstanceAs (Decidable True)
  | .lose _ => inferInstanceAs (Decidable True)
  | .freeFd _ _ => inferInstanceAs (Decidable True)
  | .configRemotes _ => inferInstanceAs (Decidable True)

def refsKept : Machine ConnsSystem Label := machine.guarded RefsKept

instance (s : ConnsSystem) (l : Label) : Decidable (refsKept.enabled s l) :=
  inferInstanceAs (Decidable (s.Enabled l ∧ s.RefsKept l))

/-- Every idle descriptor was connected to the address of its pool, and every report hit the
remote that its talk was connected to. -/
def Straight (s : ConnsSystem) : Prop :=
  (∀ addr p, s.mgr.conns addr = some p → ∀ fd ∈ p.fds, s.opened fd = some addr) ∧
    ∀ r ∈ s.reports, ∃ addr, r.peer = some addr ∧ r.hit = some addr

end ConnsSystem

end Magneto
