import Magneto.Model
import Magneto.Lib.Word

/-!
# The connections manager

`ConnsMgr` and `PoolConnsPerRemote`. The hash map of pools is a finite map keyed
by the address of a remote. What `GetRemote_` returns is a reference to a cell:
an element of the service's remotes, which never change, or an index into the
scratch vector `tmp_remotes_`, which `GetRemoteWeight_` refills. `rand_r`,
`CheckConn` and `Connect` are parameters. A call that would follow a null pointer
or divide by zero has no result.
-/

namespace Magneto

/-- The idle connections of one remote; the back of `fds_` is the head of the list. -/
structure PoolConnsPerRemote where
  remote : Remote
  healthMark : ℕ
  fds : List ℤ
  expiretimeSec : ℤ → ℤ

structure ConnEnv where
  checkConn : Bool
  connect : ℤ × Bool
  deriving DecidableEq, Repr

structure PoolGet where
  fd : ℤ
  needless : Bool
  closed : Option ℤ
  connected : Option Addr
  pool : PoolConnsPerRemote

namespace PoolConnsPerRemote

def kFullMarkHealth : ℕ := 100

def new (remote : Remote) : PoolConnsPerRemote := ⟨remote, kFullMarkHealth, [], fun _ => 0⟩

def setNumLongConnsPerRemote (p : PoolConnsPerRemote) (longConns : ℕ) : PoolConnsPerRemote :=
  { p with remote := { p.remote with longConns := longConns } }

def isHealthy (p : PoolConnsPerRemote) : Bool := kFullMarkHealth = p.healthMark

def reportStatus (p : PoolConnsPerRemote) (status : Bool) : PoolConnsPerRemote :=
  { p with
    healthMark := if status then min (p.healthMark * 2) kFullMarkHealth
      else max (p.healthMark / 2) 1 }

def getConnect (p : PoolConnsPerRemote) (env : ConnEnv) (closed : Option ℤ) : PoolGet :=
  ⟨env.connect.1, env.connect.2, closed, some p.remote.addr, p⟩

def get (p : PoolConnsPerRemote) (env : ConnEnv) : PoolGet :=
  match p.fds with
  | [] => p.getConnect env none
  | fd :: fds =>
    let p := { p with fds := fds }
    if fd ≠ 0 then
      if env.checkConn then ⟨fd, true, none, none, p⟩ else p.getConnect env (some fd)
    else p.getConnect env none

/-- `PoolConnsPerRemote::Put`; the first component is the descriptor it closed. -/
def put (p : PoolConnsPerRemote) (fd now longConnKeepaliveSec : ℤ) :
    Option ℤ × PoolConnsPerRemote :=
  if p.remote.longConns ≤ p.fds.length then (some fd, p)
  else if p.expiretimeSec fd ≠ 0 then
    if now < p.expiretimeSec fd then (none, { p with fds := fd :: p.fds })
    else (some fd, { p with expiretimeSec := Function.update p.expiretimeSec fd 0 })
  else
    (none, { p with
      expiretimeSec := Function.update p.expiretimeSec fd (now + longConnKeepaliveSec)
      fds := fd :: p.fds })

end PoolConnsPerRemote

structure ConnsMgr where
  longConnKeepaliveSec : ℤ
  conns : Addr → Option PoolConnsPerRemote
  unhealthyGuys : List Remote
  tmpRemotes : List Remote
  tmpWeights : List ℕ

namespace ConnsMgr

def new (longConnKeepaliveSec : ℤ) : ConnsMgr := ⟨longConnKeepaliveSec, fun _ => none, [], [], []⟩

def isHealthy (m : ConnsMgr) (remote : Remote) : Bool :=
  !m.unhealthyGuys.any (fun guy => guy.eqRemote remote)

def failedBefore (remote : Remote) (failRemotes : List Remote) : Bool :=
  failRemotes.any (fun fail => remote.eqRemote fail)

/-- The remote is in the list, as far as `EqRemote` tells. -/
def Among (remotes : List Remote) (remote : Remote) : Prop :=
  ∃ r ∈ remotes, remote.eqRemote r = true

instance (remotes : List Remote) (remote : Remote) : Decidable (Among remotes remote) :=
  inferInstanceAs (Decidable (∃ r ∈ remotes, _))

theorem failedBefore_iff {remote : Remote} {failRemotes : List Remote} :
    failedBefore remote failRemotes = true ↔ Among failRemotes remote := List.any_eq_true

theorem failedBefore_eq_false_iff {remote : Remote} {failRemotes : List Remote} :
    failedBefore remote failRemotes = false ↔ ¬ Among failRemotes remote := by
  rw [← failedBefore_iff, Bool.not_eq_true]

def anyRemote (service : Service) (rand : ℕ) : Option RemoteRef :=
  if service.remotes = [] then none else some (.elem service (rand % service.remotes.length))

def getRemoteNormal (m : ConnsMgr) (service : Service) (failRemotes : List Remote) (rand : ℕ) :
    Option RemoteRef :=
  match service.remotes.findIdx? (fun r => m.isHealthy r && !failedBefore r failRemotes) with
  | some i => some (.elem service i)
  | none => anyRemote service rand

def pickWeight (random : ℤ) : List ℕ → ℤ → ℕ → Option ℕ
  | [], _, _ => none
  | w :: ws, weight, i =>
    let weight := Word.narrow (weight + w)
    if random < weight then some i else pickWeight random ws weight (i + 1)

def pick (weights : List ℕ) (weightAll rand : ℕ) : Option ℕ :=
  if weightAll = 0 then none else pickWeight (Word.narrow (rand % weightAll : ℕ)) weights 0 0

def refill (service : Service) (failRemotes : List Remote) : List Remote :=
  service.remotes.filter (fun r => !failedBefore r failRemotes)

/-- The weights of the scratch remotes; every one of them must have a pool. -/
def healthWeights (m : ConnsMgr) : List Remote → Option (List ℕ)
  | [] => some []
  | r :: rs =>
    match m.conns r.addr, m.healthWeights rs with
    | some p, some ws => some ((r.weight * p.healthMark) % 2 ^ 64 :: ws)
    | _, _ => none

def getRemoteWeight (m : ConnsMgr) (service : Service) (failRemotes : List Remote) (rand : ℕ) :
    Option RemoteRef × ConnsMgr :=
  if m.unhealthyGuys = [] then
    ((pick (service.remotes.map Remote.weight) service.weightAll rand).map (.elem service), m)
  else
    let m := { m with tmpRemotes := refill service failRemotes, tmpWeights := [] }
    match m.healthWeights m.tmpRemotes with
    | none => (none, m)
    | some weights =>
      let m := { m with tmpWeights := weights }
      if weights ≠ [] then ((pick weights (weights.sum % 2 ^ 64) rand).map .tmp, m)
      else (anyRemote service rand, m)

def getRemote (m : ConnsMgr) (service : Service) (failRemotes : List Remote) (rand : ℕ) :
    Option RemoteRef × ConnsMgr :=
  match service.serviceStrategy with
  | .kNormal => (m.getRemoteNormal service failRemotes rand, m)
  | .kWeight => m.getRemoteWeight service failRemotes rand
  | .kInvalid => (none, m)

def setPool (m : ConnsMgr) (addr : Addr) (p : PoolConnsPerRemote) : ConnsMgr :=
  { m with conns := fun a => if a = addr then some p else m.conns a }

def pool (m : ConnsMgr) (remote : Remote) : PoolConnsPerRemote :=
  (m.conns remote.addr).getD (.new remote)

def getFdOf (m : ConnsMgr) (remote : Remote) (env : ConnEnv) : PoolGet × ConnsMgr :=
  let r := (m.pool remote).get env
  (r, m.setPool remote.addr r.pool)

def getFd (m : ConnsMgr) (service : Service) (failRemotes : List Remote) (rand : ℕ)
    (env : ConnEnv) : Option (RemoteRef × PoolGet × ConnsMgr) :=
  let r := m.getRemote service failRemotes rand
  r.1.bind fun ref => (ref.deref r.2.tmpRemotes).map fun remote => (ref, r.2.getFdOf remote env)

def freeFd (m : ConnsMgr) (remote : Remote) (fd now : ℤ) : Option ℤ × ConnsMgr :=
  match m.conns remote.addr with
  | none => (some fd, m)
  | some p =>
    if 0 < p.remote.longConns then
      let r := p.put fd now m.longConnKeepaliveSec
      (r.1, m.setPool remote.addr r.2)
    else (some fd, m)

def insertGuy (guys : List Remote) (remote : Remote) : List Remote :=
  if guys.any (fun guy => guy.eqRemote remote) then guys else remote :: guys

def eraseGuy (guys : List Remote) (remote : Remote) : List Remote :=
  guys.filter (fun guy => !guy.eqRemote remote)

def reportStatus (m : ConnsMgr) (remote : Remote) (status : Bool) : ConnsMgr :=
  match m.conns remote.addr with
  | none => m
  | some p =>
    let p' := p.reportStatus status
    let m := m.setPool remote.addr p'
    if p.isHealthy ∧ ¬ p'.isHealthy then
      { m with unhealthyGuys := insertGuy m.unhealthyGuys remote }
    else if ¬ p.isHealthy ∧ p'.isHealthy then
      { m with unhealthyGuys := eraseGuy m.unhealthyGuys remote }
    else m

def addRemotes (m : ConnsMgr) (remotes : List Remote) : ConnsMgr :=
  remotes.foldl (fun m r => m.setPool r.addr ((m.pool r).setNumLongConnsPerRemote r.longConns)) m

/-- `ConnsMgr::ConfigRemotes`; the pools that are not in the set are deleted. -/
def configRemotes (m : ConnsMgr) (remotes : List Remote) : ConnsMgr :=
  let m := m.addRemotes remotes
  let known (a : Addr) : Bool := remotes.any (fun r => r.addr = a)
  { m with
    conns := fun a => if known a then m.conns a else none
    unhealthyGuys := m.unhealthyGuys.filter
      (fun guy => known guy.addr || (m.conns guy.addr).isNone) }

end ConnsMgr

end Magneto
