import Magneto.ConnsMgr

/-!
# What the calls of the connections manager do

Each call is specified by what it does to the pools: `GetFd` takes at most one
idle descriptor out of one pool, `FreeFd` puts one into the pool of its remote
or closes it, `ReportStatus` and `ConfigRemotes` leave idle descriptors where
they are or forget whole pools. Only `GetFd` changes the scratch vector.
-/

namespace Magneto

inductive PoolConnsPerRemote.PutCase (p : PoolConnsPerRemote) (fd now keepalive : ℤ) :
    Option ℤ × PoolConnsPerRemote → Prop
  | full (h : p.remote.longConns ≤ p.fds.length) : PutCase p fd now keepalive (some fd, p)
  | kept (h : p.fds.length < p.remote.longConns) (hset : p.expiretimeSec fd ≠ 0)
      (hnow : now < p.expiretimeSec fd) :
      PutCase p fd now keepalive (none, { p with fds := fd :: p.fds })
  | retired (h : p.fds.length < p.remote.longConns) (hset : p.expiretimeSec fd ≠ 0)
      (hnow : p.expiretimeSec fd ≤ now) :
      PutCase p fd now keepalive
        (some fd, { p with expiretimeSec := Function.update p.expiretimeSec fd 0 })
  | marked (h : p.fds.length < p.remote.longConns) (hset : p.expiretimeSec fd = 0) :
      PutCase p fd now keepalive
        (none, { p with
          expiretimeSec := Function.update p.expiretimeSec fd (now + keepalive)
          fds := fd :: p.fds })

theorem PoolConnsPerRemote.put_cases (p : PoolConnsPerRemote) (fd now keepalive : ℤ) :
    p.PutCase fd now keepalive (p.put fd now keepalive) := by
  unfold put
  split_ifs with hfull hset hnow
  · exact .full hfull
  · exact .kept (by omega) hset hnow
  · exact .retired (by omega) hset (by omega)
  · exact .marked (by omega) (by omega)

theorem PoolConnsPerRemote.get_pool (p : PoolConnsPerRemote) (env : ConnEnv) :
    (p.get env).pool = { p with fds := p.fds.tail } := by
  obtain ⟨remote, healthMark, fds, expiretimeSec⟩ := p
  cases fds with
  | nil => rfl
  | cons fd fds =>
    simp only [get, getConnect]
    split_ifs <;> rfl

namespace ConnsMgr

variable {m m' : ConnsMgr}

def PoolsOk (m : ConnsMgr) : Prop :=
  ∀ addr p, m.conns addr = some p → p.remote.addr = addr ∧ p.fds.Nodup ∧ ∀ fd ∈ p.fds, 0 < fd

theorem poolsOk_pool (h : m.PoolsOk) (remote : Remote) :
    (m.pool remote).remote.addr = remote.addr ∧ (m.pool remote).fds.Nodup ∧
      ∀ fd ∈ (m.pool remote).fds, 0 < fd := by
  unfold pool
  cases hc : m.conns remote.addr with
  | none => exact ⟨rfl, List.nodup_nil, by simp [PoolConnsPerRemote.new]⟩
  | some p => exact h _ p hc

theorem mem_pool {remote : Remote} {fd : ℤ} (h : fd ∈ (m.pool remote).fds) :
    ∃ p, m.conns remote.addr = some p ∧ fd ∈ p.fds := by
  unfold pool at h
  cases hc : m.conns remote.addr with
  | none => simp [hc, PoolConnsPerRemote.new] at h
  | some p => exact ⟨p, rfl, by simpa [hc] using h⟩

theorem getRemote_spec (m : ConnsMgr) (service : Service) (failRemotes : List Remote) (rand : ℕ) :
    (m.getRemote service failRemotes rand).2.conns = m.conns ∧
      ((m.getRemote service failRemotes rand).2.tmpRemotes = m.tmpRemotes ∨
        service.serviceStrategy = .kWeight ∧ m.unhealthyGuys ≠ [] ∧
          (m.getRemote service failRemotes rand).2.tmpRemotes = refill service failRemotes) := by
  unfold getRemote
  cases hs : service.serviceStrategy with
  | kNormal => exact ⟨rfl, .inl rfl⟩
  | kInvalid => exact ⟨rfl, .inl rfl⟩
  | kWeight =>
    dsimp only [getRemoteWeight]
    split_ifs with hg
    · exact ⟨rfl, .inl rfl⟩
    · split
      · exact ⟨rfl, .inr ⟨rfl, hg, rfl⟩⟩
      · split_ifs <;> exact ⟨rfl, .inr ⟨rfl, hg, rfl⟩⟩

theorem get_spec {p : PoolConnsPerRemote} (hpos : ∀ fd ∈ p.fds, 0 < fd) (env : ConnEnv) :
    (p.get env).pool.remote = p.remote ∧
    ∃ popped : Option ℤ, p.fds = popped.toList ++ (p.get env).pool.fds ∧
      ((p.get env).connected = none ∧ (p.get env).closed = none ∧ popped = some (p.get env).fd ∨
        (p.get env).connected = some p.remote.addr ∧ (p.get env).closed = popped) := by
  unfold PoolConnsPerRemote.get
  cases hf : p.fds with
  | nil => exact ⟨rfl, none, hf.symm, .inr ⟨rfl, rfl⟩⟩
  | cons fd fds =>
    have hne : fd ≠ 0 := (hpos fd (by simp [hf])).ne'
    dsimp only
    rw [if_pos hne]
    split_ifs
    · exact ⟨rfl, some fd, rfl, .inl ⟨rfl, rfl, rfl⟩⟩
    · exact ⟨rfl, some fd, rfl, .inr ⟨rfl, rfl⟩⟩

theorem getFd_cases {service : Service} {failRemotes : List Remote} {rand : ℕ} {env : ConnEnv}
    {ref : RemoteRef} {r : PoolGet}
    (hg : m.getFd service failRemotes rand env = some (ref, r, m')) :
    ∃ q : ConnsMgr, q = (m.getRemote service failRemotes rand).2 ∧ q.conns = m.conns ∧
      ∃ remote, ref.deref q.tmpRemotes = some remote ∧ r = (q.pool remote).get env ∧
        m' = q.setPool remote.addr r.pool := by
  refine ⟨_, rfl, (getRemote_spec m service failRemotes rand).1, ?_⟩
  simp only [getFd] at hg
  obtain ⟨ref', -, hg⟩ := Option.bind_eq_some_iff.mp hg
  obtain ⟨remote, hd, he⟩ := Option.map_eq_some_iff.mp hg
  simp only [getFdOf, Prod.mk.injEq] at he
  obtain ⟨rfl, rfl, rfl⟩ := he
  exact ⟨remote, hd, rfl, rfl⟩

/-- What `GetFd` does: `popped` is the idle descriptor it took, from the pool of `addr`. -/
structure GetFdSpec (m : ConnsMgr) (service : Service) (failRemotes : List Remote)
    (ref : RemoteRef) (r : PoolGet) (m' : ConnsMgr) (addr : Addr) (popped : Option ℤ) : Prop where
  denotes : (ref.deref m'.tmpRemotes).map Remote.addr = some addr
  tmp : m'.tmpRemotes = m.tmpRemotes ∨ service.serviceStrategy = .kWeight ∧
    m.unhealthyGuys ≠ [] ∧ m'.tmpRemotes = refill service failRemotes
  ok : m'.PoolsOk
  idle : ∀ a p', m'.conns a = some p' → ∀ fd ∈ p'.fds,
    (∃ p, m.conns a = some p ∧ fd ∈ p.fds) ∧ (a = addr → popped ≠ some fd)
  taken : ∀ fd, popped = some fd → ∃ p, m.conns addr = some p ∧ fd ∈ p.fds
  result : r.connected = none ∧ r.closed = none ∧ popped = some r.fd ∨
    r.connected = some addr ∧ r.closed = popped

theorem getFd_spec (h : m.PoolsOk) {service : Service} {failRemotes : List Remote} {rand : ℕ}
    {env : ConnEnv} {ref : RemoteRef} {r : PoolGet}
    (hg : m.getFd service failRemotes rand env = some (ref, r, m')) :
    ∃ addr popped, GetFdSpec m service failRemotes ref r m' addr popped := by
  obtain ⟨-, htmp⟩ := getRemote_spec m service failRemotes rand
  obtain ⟨q, hq, hconns, remote, hd, hr, rfl⟩ := getFd_cases hg
  rw [← hq] at htmp
  have hok : q.PoolsOk := fun a p hp => h a p (hconns ▸ hp)
  obtain ⟨haddr, hnodup, hpos⟩ := poolsOk_pool hok remote
  obtain ⟨hremote, popped, hfds, hres⟩ := get_spec hpos env
  rw [← hr] at hremote hfds hres
  have hsub : ∀ fd ∈ r.pool.fds, fd ∈ (q.pool remote).fds := by
    intro fd hfd
    rw [hfds]
    exact List.mem_append_right _ hfd
  have hpool : r.pool.remote.addr = remote.addr ∧ r.pool.fds.Nodup ∧
      ∀ fd ∈ r.pool.fds, 0 < fd := by
    refine ⟨by rw [hremote, haddr], ?_, fun fd hfd => hpos fd (hsub fd hfd)⟩
    rw [hfds] at hnodup
    exact hnodup.of_append_right
  refine ⟨remote.addr, popped, ?_, htmp, ?_, ?_, ?_, by rwa [haddr] at hres⟩
  · simp [setPool, hd]
  · intro a p hp
    simp only [setPool] at hp
    split_ifs at hp with ha
    · obtain rfl := Option.some.inj hp
      exact ha ▸ hpool
    · exact hok a p hp
  · intro a p hp fd hfd
    simp only [setPool] at hp
    split_ifs at hp with ha
    · obtain rfl := Option.some.inj hp
      rw [ha, ← hconns]
      refine ⟨mem_pool (hsub fd hfd), fun _ hpop => ?_⟩
      rw [hfds, hpop] at hnodup
      exact (List.nodup_cons.mp hnodup).1 hfd
    · rw [← hconns]
      exact ⟨⟨p, hp, hfd⟩, fun he => absurd he ha⟩
  · intro fd hpop
    rw [← hconns]
    exact mem_pool (by rw [hfds, hpop]; exact List.mem_cons_self)

def Keeps (m m' : ConnsMgr) : Prop :=
  ∀ a p', m'.conns a = some p' → p'.fds = [] ∧ p'.remote.addr = a ∨
    ∃ p, m.conns a = some p ∧ p'.fds = p.fds ∧ p'.remote.addr = p.remote.addr

theorem Keeps.refl (m : ConnsMgr) : Keeps m m := fun _ p' hp => .inr ⟨p', hp, rfl, rfl⟩

theorem Keeps.trans {m₁ m₂ m₃ : ConnsMgr} (h₁ : Keeps m₁ m₂) (h₂ : Keeps m₂ m₃) : Keeps m₁ m₃ := by
  intro a p₃ hp₃
  rcases h₂ a p₃ hp₃ with hnew | ⟨p₂, hp₂, hf, hr⟩
  · exact .inl hnew
  · rcases h₁ a p₂ hp₂ with ⟨hnil, ha⟩ | ⟨p₁, hp₁, hf', hr'⟩
    · exact .inl ⟨hf.trans hnil, hr.trans ha⟩
    · exact .inr ⟨p₁, hp₁, hf.trans hf', hr.trans hr'⟩

theorem Keeps.ok (h : Keeps m m') (hok : m.PoolsOk) : m'.PoolsOk := by
  intro a p' hp'
  rcases h a p' hp' with ⟨hnil, ha⟩ | ⟨p, hp, hf, hr⟩
  · exact ⟨ha, by rw [hnil]; exact List.nodup_nil, by simp [hnil]⟩
  · obtain ⟨ha, hn, hpos⟩ := hok a p hp
    exact ⟨hr.trans ha, hf ▸ hn, hf ▸ hpos⟩

theorem Keeps.mem (h : Keeps m m') {a : Addr} {p' : PoolConnsPerRemote}
    (hp' : m'.conns a = some p') {fd : ℤ} (hfd : fd ∈ p'.fds) :
    ∃ p, m.conns a = some p ∧ fd ∈ p.fds := by
  rcases h a p' hp' with ⟨hnil, -⟩ | ⟨p, hp, hf, -⟩
  · simp [hnil] at hfd
  · exact ⟨p, hp, hf ▸ hfd⟩

theorem keeps_setPool {remote : Remote} {p : PoolConnsPerRemote}
    (hf : p.fds = (m.pool remote).fds) (hr : p.remote.addr = (m.pool remote).remote.addr) :
    Keeps m (m.setPool remote.addr p) := by
  intro a p' hp'
  simp only [setPool] at hp'
  split_ifs at hp' with ha
  · obtain rfl := Option.some.inj hp'
    unfold pool at hf hr
    cases hc : m.conns remote.addr with
    | none =>
      rw [hc] at hf hr
      exact .inl ⟨hf, hr.trans ha.symm⟩
    | some q =>
      rw [hc] at hf hr
      exact .inr ⟨q, ha ▸ hc, hf, hr⟩
  · exact .inr ⟨p', hp', rfl, rfl⟩

theorem reportStatus_keeps (m : ConnsMgr) (remote : Remote) (status : Bool) :
    Keeps m (m.reportStatus remote status) ∧
      (m.reportStatus remote status).tmpRemotes = m.tmpRemotes := by
  unfold reportStatus
  cases hc : m.conns remote.addr with
  | none => exact ⟨.refl m, rfl⟩
  | some p =>
    have hp : m.pool remote = p := by simp [pool, hc]
    have hk : Keeps m (m.setPool remote.addr (p.reportStatus status)) :=
      keeps_setPool (by rw [hp]; rfl) (by rw [hp]; rfl)
    dsimp only
    split_ifs <;> exact ⟨hk, rfl⟩

theorem addRemotes_keeps (m : ConnsMgr) (remotes : List Remote) :
    Keeps m (m.addRemotes remotes) ∧ (m.addRemotes remotes).tmpRemotes = m.tmpRemotes := by
  unfold addRemotes
  induction remotes generalizing m with
  | nil => exact ⟨.refl m, rfl⟩
  | cons r remotes ih =>
    obtain ⟨hk, ht⟩ := ih (m.setPool r.addr ((m.pool r).setNumLongConnsPerRemote r.longConns))
    have hr : Keeps m (m.setPool r.addr ((m.pool r).setNumLongConnsPerRemote r.longConns)) :=
      keeps_setPool rfl rfl
    exact ⟨hr.trans hk, ht⟩

theorem configRemotes_keeps (m : ConnsMgr) (remotes : List Remote) :
    Keeps m (m.configRemotes remotes) ∧
      (m.configRemotes remotes).tmpRemotes = m.tmpRemotes := by
  obtain ⟨hk, ht⟩ := addRemotes_keeps m remotes
  refine ⟨fun a p' hp' => ?_, ht⟩
  simp only [configRemotes] at hp'
  split_ifs at hp'
  exact hk a p' hp'

theorem freeFd_spec (m : ConnsMgr) (remote : Remote) (fd now : ℤ) :
    (m.freeFd remote fd now).2.tmpRemotes = m.tmpRemotes ∧
    ((m.freeFd remote fd now).1 = some fd ∧ Keeps m (m.freeFd remote fd now).2 ∨
      (m.freeFd remote fd now).1 = none ∧ ∃ p p', m.conns remote.addr = some p ∧
        p'.remote = p.remote ∧ p'.fds = fd :: p.fds ∧
        (m.freeFd remote fd now).2 = m.setPool remote.addr p') := by
  unfold freeFd
  cases hc : m.conns remote.addr with
  | none => exact ⟨rfl, .inl ⟨rfl, .refl m⟩⟩
  | some p =>
    have hp : m.pool remote = p := by simp [pool, hc]
    dsimp only
    split_ifs
    · refine ⟨rfl, ?_⟩
      have hcases := p.put_cases fd now m.longConnKeepaliveSec
      generalize p.put fd now m.longConnKeepaliveSec = r at hcases ⊢
      cases hcases with
      | full | retired => exact .inl ⟨rfl, keeps_setPool (by rw [hp]) (by rw [hp])⟩
      | kept => exact .inr ⟨rfl, p, { p with fds := fd :: p.fds }, rfl, rfl, rfl, rfl⟩
      | marked => exact .inr ⟨rfl, p, { p with
          expiretimeSec := Function.update p.expiretimeSec fd (now + m.longConnKeepaliveSec)
          fds := fd :: p.fds }, rfl, rfl, rfl, rfl⟩
    · exact ⟨rfl, .inl ⟨rfl, .refl m⟩⟩

end ConnsMgr

end Magneto
