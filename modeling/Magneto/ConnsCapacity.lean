import Magneto.ConnsCalls

/-!
# How many descriptors are idle

`Put` and `FreeFd` keep a descriptor only while the pool has fewer than `long_conns` of them,
`GetFd` takes one out. `ConfigRemotes` sets the limit of a pool and leaves its descriptors, so
the pools stay within their limits exactly as long as no configuration sets a limit below the
number of descriptors that are idle.
-/

namespace Magneto

def PoolConnsPerRemote.Within (p : PoolConnsPerRemote) : Prop :=
  p.fds.length ≤ p.remote.longConns

namespace PoolConnsPerRemote

variable {p : PoolConnsPerRemote}

theorem within_new (remote : Remote) : (new remote).Within := Nat.zero_le _

theorem Within.get (h : p.Within) (env : ConnEnv) : (p.get env).pool.Within := by
  have htail : p.fds.tail.length ≤ p.fds.length := by
    rw [List.length_tail]
    exact Nat.sub_le _ _
  rw [get_pool]
  exact htail.trans h

theorem Within.put (h : p.Within) (fd now keepalive : ℤ) : (p.put fd now keepalive).2.Within := by
  have hcases := p.put_cases fd now keepalive
  generalize p.put fd now keepalive = r at hcases ⊢
  cases hcases with
  | full | retired => exact h
  | kept hroom | marked hroom => exact hroom

end PoolConnsPerRemote

namespace ConnsMgr

variable {m m' : ConnsMgr}

def IdleWithin (m : ConnsMgr) : Prop := ∀ a p, m.conns a = some p → p.Within

theorem idleWithin_new (longConnKeepaliveSec : ℤ) : (new longConnKeepaliveSec).IdleWithin := by
  intro a p hp
  cases hp

theorem IdleWithin.pool (h : m.IdleWithin) (remote : Remote) : (m.pool remote).Within := by
  unfold ConnsMgr.pool
  cases hc : m.conns remote.addr with
  | none => exact PoolConnsPerRemote.within_new remote
  | some p => exact h _ p hc

theorem IdleWithin.setPool (h : m.IdleWithin) {p : PoolConnsPerRemote} (hp : p.Within)
    (addr : Addr) : (m.setPool addr p).IdleWithin := by
  intro a q hq
  simp only [ConnsMgr.setPool] at hq
  split_ifs at hq
  · obtain rfl := Option.some.inj hq
    exact hp
  · exact h a q hq

theorem IdleWithin.getFd (h : m.IdleWithin) {service : Service} {failRemotes : List Remote}
    {rand : ℕ} {env : ConnEnv} {ref : RemoteRef} {r : PoolGet}
    (hg : m.getFd service failRemotes rand env = some (ref, r, m')) : m'.IdleWithin := by
  obtain ⟨q, -, hconns, remote, -, rfl, rfl⟩ := getFd_cases hg
  have hq : q.IdleWithin := fun a p hp => h a p (hconns ▸ hp)
  exact hq.setPool ((hq.pool remote).get env) remote.addr

theorem IdleWithin.freeFd (h : m.IdleWithin) (remote : Remote) (fd now : ℤ) :
    (m.freeFd remote fd now).2.IdleWithin := by
  unfold ConnsMgr.freeFd
  cases hc : m.conns remote.addr with
  | none => exact h
  | some p =>
    dsimp only
    split_ifs
    · exact h.setPool ((h _ p hc).put fd now m.longConnKeepaliveSec) remote.addr
    · exact h

theorem IdleWithin.reportStatus (h : m.IdleWithin) (remote : Remote) (status : Bool) :
    (m.reportStatus remote status).IdleWithin := by
  unfold ConnsMgr.reportStatus
  cases hc : m.conns remote.addr with
  | none => exact h
  | some p =>
    have hp : (p.reportStatus status).Within := h _ p hc
    dsimp only
    split_ifs <;> exact h.setPool hp remote.addr

/-- A configuration sets no limit below the number of descriptors that are idle. -/
def Roomy (m : ConnsMgr) : Call → Prop
  | .configRemotes remotes => ∀ r ∈ remotes, ∀ p ∈ m.conns r.addr, p.fds.length ≤ r.longConns
  | _ => True

instance (m : ConnsMgr) : ∀ c, Decidable (m.Roomy c)
  | .configRemotes remotes => inferInstanceAs (Decidable (∀ r ∈ remotes, ∀ p ∈ m.conns r.addr, _))
  | .getFd _ _ _ _ => inferInstanceAs (Decidable True)
  | .freeFd _ _ _ => inferInstanceAs (Decidable True)
  | .reportStatus _ _ => inferInstanceAs (Decidable True)

instance (m : ConnsMgr) (c : Call) : Decidable ((calls.guarded Roomy).enabled m c) :=
  inferInstanceAs (Decidable (m.Callable c ∧ m.Roomy c))

theorem configRemotes_idleWithin_iff {remotes : List Remote}
    (hnodup : (remotes.map Remote.addr).Nodup) :
    (m.configRemotes remotes).IdleWithin ↔ m.Roomy (.configRemotes remotes) := by
  constructor
  · intro h r hr p hp
    have hwithin := h r.addr _ (configRemotes_get m hnodup hr)
    have hpool : m.pool r = p := by simp [pool, Option.mem_def.mp hp]
    rw [hpool] at hwithin
    exact hwithin
  · intro h a p' hp'
    obtain ⟨r, hr, rfl⟩ := ((configRemotes_configured m hnodup).keys a).mp (by rw [hp']; rfl)
    rw [configRemotes_get m hnodup hr, Option.some.injEq] at hp'
    subst hp'
    show (m.pool r).fds.length ≤ r.longConns
    unfold pool
    cases hc : m.conns r.addr with
    | none => exact Nat.zero_le _
    | some p => exact h r hr p hc

theorem call_idleWithin_iff (m : ConnsMgr) (c : Call) (h : m.IdleWithin) (hc : m.Callable c) :
    (calls.next m c).IdleWithin ↔ m.Roomy c := by
  cases c with
  | configRemotes remotes => exact configRemotes_idleWithin_iff hc.2
  | freeFd remote fd now => exact iff_of_true (h.freeFd remote fd now) trivial
  | reportStatus remote status => exact iff_of_true (h.reportStatus remote status) trivial
  | getFd service failRemotes rand env =>
    refine iff_of_true ?_ trivial
    simp only [calls, call, Option.map_map]
    cases hg : m.getFd service failRemotes rand env with
    | none => exact h
    | some q => exact h.getFd hg

/-- After every call of a sequence the idle descriptors of every pool are within its limit, if
and only if no `ConfigRemotes` of it sets a limit below the number of idle descriptors. -/
theorem calls_idleWithin_iff (longConnKeepaliveSec : ℤ) (cs : List Call)
    (hcs : calls.Admits (.new longConnKeepaliveSec) cs) :
    (∀ n, (calls.exec (.new longConnKeepaliveSec) (cs.take n)).IdleWithin) ↔
      (calls.guarded Roomy).Admits (.new longConnKeepaliveSec) cs :=
  calls.forall_take_iff call_idleWithin_iff (idleWithin_new _) hcs

def limited (longConns : ℕ) : Remote := ⟨⟨1, 80⟩, 1, longConns, 50, 50, 50⟩

def limitedService : Service := ⟨0, "svc", .kRapid, .kNormal, [limited 2], 1, 0⟩

/-- Two connections are opened and given back to a pool for two. -/
def filledRun : List Call :=
  [.configRemotes [limited 2], .getFd limitedService [] 0 ⟨true, 5, false⟩,
    .getFd limitedService [] 0 ⟨true, 6, false⟩, .freeFd (limited 2) 5 0, .freeFd (limited 2) 6 0]

def loweredRun : List Call := filledRun ++ [.configRemotes [limited 1]]

theorem calls_idleWithin_iff_filledRun :
    (∀ n, (calls.exec (.new 10) (filledRun.take n)).IdleWithin) ∧
      ¬ ∀ n, (calls.exec (.new 10) (loweredRun.take n)).IdleWithin := by
  constructor
  · rw [calls_idleWithin_iff 10 filledRun (by decide)]
    decide
  · rw [calls_idleWithin_iff 10 loweredRun (by decide)]
    decide

theorem loweredLimit_exceeded : ¬ ∀ (longConnKeepaliveSec : ℤ) (cs : List Call),
    calls.Admits (.new longConnKeepaliveSec) cs →
    (calls.exec (.new longConnKeepaliveSec) cs).IdleWithin := by
  intro h
  have hwithin := h 10 loweredRun (by decide) ⟨1, 80⟩
  have hidle : ((calls.exec (.new 10) loweredRun).conns ⟨1, 80⟩).map
      (fun p => (p.fds.length, p.remote.longConns)) = some (2, 1) := by decide
  obtain ⟨p, hp, heq⟩ := Option.map_eq_some_iff.mp hidle
  have hle : p.fds.length ≤ p.remote.longConns := hwithin p hp
  rw [Prod.mk.injEq] at heq
  omega

end ConnsMgr

end Magneto
