import Magneto.ConnsMgrSpec
import Magneto.Lib.Machine

/-!
# Sequences of calls of a connections manager

A call of the manager with what it reads from outside, and its effect on
descriptors. The remotes of `ConfigRemotes` are a set keyed by address. Over any
sequence of calls the set of unhealthy remotes is kept equal to the keys of the
pools whose mark is not full, although `ReportStatus`, `ConfigRemotes` and
`GetFd` each change only one side of this at a time.
-/

namespace Magneto.ConnsMgr

inductive Call
  | configRemotes (remotes : List Remote)
  | getFd (service : Service) (failRemotes : List Remote) (rand : ℕ) (env : ConnEnv)
  | freeFd (remote : Remote) (fd now : ℤ)
  | reportStatus (remote : Remote) (status : Bool)
  deriving DecidableEq, Repr

structure Effect where
  closed : Option ℤ
  opened : Option ℤ
  given : Option ℤ
  taken : Option ℤ

def call (m : ConnsMgr) : Call → Option (Effect × ConnsMgr)
  | .configRemotes remotes => some (⟨none, none, none, none⟩, m.configRemotes remotes)
  | .getFd service failRemotes rand env =>
    (m.getFd service failRemotes rand env).map fun r =>
      let got := if 0 < r.2.1.fd then some r.2.1.fd else none
      (⟨r.2.1.closed, if r.2.1.connected.isSome then got else none, got, none⟩, r.2.2)
  | .freeFd remote fd now =>
    let r := m.freeFd remote fd now
    some (⟨r.1, none, none, some fd⟩, r.2)
  | .reportStatus remote status => some (⟨none, none, none, none⟩, m.reportStatus remote status)

def Call.Distinct : Call → Prop
  | .configRemotes remotes => (remotes.map Remote.addr).Nodup
  | _ => True

instance : ∀ c : Call, Decidable c.Distinct
  | .configRemotes remotes => inferInstanceAs (Decidable (remotes.map Remote.addr).Nodup)
  | .getFd _ _ _ _ => inferInstanceAs (Decidable True)
  | .freeFd _ _ _ => inferInstanceAs (Decidable True)
  | .reportStatus _ _ => inferInstanceAs (Decidable True)

/-- A call that would follow a null pointer or divide by zero does not return. -/
def Callable (m : ConnsMgr) (c : Call) : Prop := (m.call c).isSome ∧ c.Distinct

instance (m : ConnsMgr) (c : Call) : Decidable (m.Callable c) :=
  inferInstanceAs (Decidable (_ ∧ _))

def calls : Machine ConnsMgr Call where
  enabled := Callable
  next m c := ((m.call c).map Prod.snd).getD m

instance (m : ConnsMgr) (c : Call) : Decidable (calls.enabled m c) :=
  inferInstanceAs (Decidable (m.Callable c))

/-- `unhealthy_guys_` holds the keys of the pools whose mark is not full. -/
structure HealthOk (m : ConnsMgr) : Prop where
  unhealthy : ∀ a, (∃ guy ∈ m.unhealthyGuys, guy.addr = a) ↔
    ∃ p, m.conns a = some p ∧ p.healthMark ≠ PoolConnsPerRemote.kFullMarkHealth
  distinct : (m.unhealthyGuys.map Remote.addr).Nodup
  marks : ∀ a p, m.conns a = some p →
    1 ≤ p.healthMark ∧ p.healthMark ≤ PoolConnsPerRemote.kFullMarkHealth

structure Configured (m : ConnsMgr) (remotes : List Remote) (m' : ConnsMgr) : Prop where
  keys : ∀ a, (m'.conns a).isSome ↔ ∃ r ∈ remotes, r.addr = a
  kept : ∀ a p p', m.conns a = some p → m'.conns a = some p' →
    p'.healthMark = p.healthMark ∧ p'.fds = p.fds
  longConns : ∀ r ∈ remotes, ∀ p', m'.conns r.addr = some p' → p'.remote.longConns = r.longConns

variable {m m' : ConnsMgr}

structure SameMarks (m m' : ConnsMgr) : Prop where
  guys : m'.unhealthyGuys = m.unhealthyGuys
  marks : ∀ a, (m'.conns a).map PoolConnsPerRemote.healthMark =
      (m.conns a).map PoolConnsPerRemote.healthMark ∨
    m.conns a = none ∧
      (m'.conns a).map PoolConnsPerRemote.healthMark = some PoolConnsPerRemote.kFullMarkHealth

theorem SameMarks.refl (m : ConnsMgr) : SameMarks m m := ⟨rfl, fun _ => .inl rfl⟩

theorem SameMarks.trans {m₁ m₂ m₃ : ConnsMgr} (h₁ : SameMarks m₁ m₂) (h₂ : SameMarks m₂ m₃) :
    SameMarks m₁ m₃ := by
  refine ⟨h₂.guys.trans h₁.guys, fun a => ?_⟩
  rcases h₂.marks a with h | ⟨hnone, hfull⟩
  · rw [h]
    exact h₁.marks a
  · rcases h₁.marks a with h | ⟨hnone', -⟩
    · rw [hnone] at h
      exact .inr ⟨by simpa using h.symm, hfull⟩
    · exact .inr ⟨hnone', hfull⟩

theorem sameMarks_setPool {remote : Remote} {p : PoolConnsPerRemote}
    (h : p.healthMark = (m.pool remote).healthMark) : SameMarks m (m.setPool remote.addr p) := by
  refine ⟨rfl, fun a => ?_⟩
  by_cases ha : a = remote.addr
  · subst ha
    simp only [setPool, if_pos, pool] at h ⊢
    cases hc : m.conns remote.addr with
    | none =>
      rw [hc] at h
      exact .inr ⟨rfl, congrArg some h⟩
    | some q =>
      rw [hc] at h
      exact .inl (congrArg some h)
  · exact .inl (by simp [setPool, ha])

theorem SameMarks.healthOk (h : SameMarks m m') (hm : m.HealthOk) : m'.HealthOk := by
  have hmark : ∀ a p', m'.conns a = some p' → (∃ p, m.conns a = some p ∧
      p.healthMark = p'.healthMark) ∨
      m.conns a = none ∧ p'.healthMark = PoolConnsPerRemote.kFullMarkHealth := by
    intro a p' hp'
    have := h.marks a
    rw [hp'] at this
    rcases this with heq | ⟨hnone, hfull⟩
    · exact .inl (Option.map_eq_some_iff.mp heq.symm)
    · exact .inr ⟨hnone, by simpa using hfull⟩
  refine ⟨fun a => ?_, by rw [h.guys]; exact hm.distinct, fun a p' hp' => ?_⟩
  · rw [h.guys, hm.unhealthy a]
    constructor
    · rintro ⟨p, hp, hne⟩
      rcases h.marks a with heq | ⟨hnone, -⟩
      · rw [hp] at heq
        obtain ⟨p', hp', he⟩ := Option.map_eq_some_iff.mp heq
        exact ⟨p', hp', he ▸ hne⟩
      · rw [hp] at hnone
        cases hnone
    · rintro ⟨p', hp', hne⟩
      rcases hmark a p' hp' with ⟨p, hp, he⟩ | ⟨-, hfull⟩
      · exact ⟨p, hp, he ▸ hne⟩
      · exact absurd hfull hne
  · rcases hmark a p' hp' with ⟨p, hp, he⟩ | ⟨-, hfull⟩
    · exact he ▸ hm.marks a p hp
    · rw [hfull]
      exact ⟨by decide, le_rfl⟩

theorem getRemote_guys (m : ConnsMgr) (service : Service) (failRemotes : List Remote)
    (rand : ℕ) : (m.getRemote service failRemotes rand).2.unhealthyGuys = m.unhealthyGuys := by
  unfold getRemote
  cases service.serviceStrategy with
  | kNormal => rfl
  | kInvalid => rfl
  | kWeight =>
    dsimp only [getRemoteWeight]
    split_ifs
    · rfl
    · split
      · rfl
      · split_ifs <;> rfl

theorem put_healthMark (p : PoolConnsPerRemote) (fd now sec : ℤ) :
    (p.put fd now sec).2.healthMark = p.healthMark := by
  unfold PoolConnsPerRemote.put
  split_ifs <;> rfl

theorem getFd_sameMarks {service : Service} {failRemotes : List Remote} {rand : ℕ}
    {env : ConnEnv} {ref : RemoteRef} {r : PoolGet}
    (hg : m.getFd service failRemotes rand env = some (ref, r, m')) : SameMarks m m' := by
  have hguys := getRemote_guys m service failRemotes rand
  obtain ⟨q, hq, hconns, remote, -, rfl, rfl⟩ := getFd_cases hg
  rw [← hq] at hguys
  have hsame : SameMarks m q := ⟨hguys, fun a => .inl (by rw [hconns])⟩
  exact hsame.trans (sameMarks_setPool (by rw [PoolConnsPerRemote.get_pool]))

theorem freeFd_sameMarks (m : ConnsMgr) (remote : Remote) (fd now : ℤ) :
    SameMarks m (m.freeFd remote fd now).2 := by
  unfold freeFd
  cases hc : m.conns remote.addr with
  | none => exact .refl m
  | some p =>
    have hp : m.pool remote = p := by simp [pool, hc]
    dsimp only
    split_ifs
    · exact sameMarks_setPool (by rw [put_healthMark, hp])
    · exact .refl m

theorem addRemotes_sameMarks (m : ConnsMgr) (remotes : List Remote) :
    SameMarks m (m.addRemotes remotes) := by
  unfold addRemotes
  induction remotes generalizing m with
  | nil => exact .refl m
  | cons r remotes ih =>
    have hr : SameMarks m (m.setPool r.addr ((m.pool r).setNumLongConnsPerRemote r.longConns)) :=
      sameMarks_setPool rfl
    exact hr.trans (ih _)

theorem mem_insertGuy (guys : List Remote) (remote : Remote) (a : Addr) :
    (∃ guy ∈ insertGuy guys remote, guy.addr = a) ↔
      a = remote.addr ∨ ∃ guy ∈ guys, guy.addr = a := by
  unfold insertGuy
  split_ifs with h
  · obtain ⟨guy, hguy, he⟩ := List.any_eq_true.mp h
    refine ⟨.inr, ?_⟩
    rintro (rfl | h)
    · exact ⟨guy, hguy, of_decide_eq_true he⟩
    · exact h
  · simp [eq_comm]

theorem mem_eraseGuy (guys : List Remote) (remote : Remote) (a : Addr) :
    (∃ guy ∈ eraseGuy guys remote, guy.addr = a) ↔
      a ≠ remote.addr ∧ ∃ guy ∈ guys, guy.addr = a := by
  simp only [eraseGuy, List.mem_filter, Remote.eqRemote, Bool.not_eq_true', decide_eq_false_iff_not]
  constructor
  · rintro ⟨guy, ⟨hguy, hne⟩, rfl⟩
    exact ⟨hne, guy, hguy, rfl⟩
  · rintro ⟨hne, guy, hguy, rfl⟩
    exact ⟨guy, ⟨hguy, hne⟩, rfl⟩

theorem insertGuy_nodup {guys : List Remote} (h : (guys.map Remote.addr).Nodup) (remote : Remote) :
    ((insertGuy guys remote).map Remote.addr).Nodup := by
  unfold insertGuy
  split_ifs with hany
  · exact h
  · refine List.nodup_cons.mpr ⟨fun hmem => hany ?_, h⟩
    obtain ⟨guy, hguy, he⟩ := List.mem_map.mp hmem
    exact List.any_eq_true.mpr ⟨guy, hguy, decide_eq_true he⟩

theorem nodup_filter {guys : List Remote} (h : (guys.map Remote.addr).Nodup)
    (f : Remote → Bool) : ((guys.filter f).map Remote.addr).Nodup :=
  h.sublist (List.filter_sublist.map _)

theorem reportStatus_marks {p : PoolConnsPerRemote} (status : Bool)
    (h : 1 ≤ p.healthMark ∧ p.healthMark ≤ PoolConnsPerRemote.kFullMarkHealth) :
    1 ≤ (p.reportStatus status).healthMark ∧
      (p.reportStatus status).healthMark ≤ PoolConnsPerRemote.kFullMarkHealth := by
  simp only [PoolConnsPerRemote.kFullMarkHealth, PoolConnsPerRemote.reportStatus] at h ⊢
  split_ifs <;> omega

theorem isHealthy_iff (p : PoolConnsPerRemote) :
    p.isHealthy = true ↔ p.healthMark = PoolConnsPerRemote.kFullMarkHealth := by
  rw [PoolConnsPerRemote.isHealthy, decide_eq_true_iff, eq_comm]

theorem HealthOk.setPool (h : m.HealthOk) {remote : Remote} {p : PoolConnsPerRemote}
    {guys : List Remote} (hmarks : 1 ≤ p.healthMark ∧
      p.healthMark ≤ PoolConnsPerRemote.kFullMarkHealth)
    (hnodup : (guys.map Remote.addr).Nodup)
    (hself : (∃ guy ∈ guys, guy.addr = remote.addr) ↔ p.isHealthy = false)
    (hother : ∀ a, a ≠ remote.addr →
      ((∃ guy ∈ guys, guy.addr = a) ↔ ∃ guy ∈ m.unhealthyGuys, guy.addr = a)) :
    HealthOk { m.setPool remote.addr p with unhealthyGuys := guys } := by
  refine ⟨fun a => ?_, hnodup, fun a q hq => ?_⟩
  · by_cases ha : a = remote.addr
    · subst ha
      rw [hself, Bool.eq_false_iff, ne_eq, isHealthy_iff]
      simp [ConnsMgr.setPool]
    · rw [hother a ha, h.unhealthy a]
      simp [ConnsMgr.setPool, ha]
  · simp only [ConnsMgr.setPool] at hq
    split_ifs at hq with ha
    · obtain rfl := Option.some.inj hq
      exact hmarks
    · exact h.marks a q hq

theorem reportStatus_healthOk (h : m.HealthOk) (remote : Remote) (status : Bool) :
    (m.reportStatus remote status).HealthOk := by
  unfold reportStatus
  cases hc : m.conns remote.addr with
  | none => exact h
  | some p =>
    have hmarks := reportStatus_marks status (h.marks _ p hc)
    have hold : (∃ guy ∈ m.unhealthyGuys, guy.addr = remote.addr) ↔ p.isHealthy = false := by
      rw [h.unhealthy, Bool.eq_false_iff, ne_eq, isHealthy_iff]
      simp [hc]
    dsimp only
    split_ifs with hdown hup
    · refine h.setPool hmarks (insertGuy_nodup h.distinct remote) ?_ fun a ha => ?_
      · simp [mem_insertGuy, Bool.eq_false_iff.mpr hdown.2]
      · rw [mem_insertGuy, or_iff_right ha]
        rfl
    · refine h.setPool hmarks (nodup_filter h.distinct _) ?_ fun a ha => ?_
      · refine (mem_eraseGuy _ remote remote.addr).trans ?_
        simp [hup.2]
      · refine (mem_eraseGuy _ remote a).trans ?_
        exact and_iff_right ha
    · refine h.setPool hmarks h.distinct (hold.trans ?_) fun a _ => Iff.rfl
      revert hdown hup
      cases p.isHealthy <;> cases (p.reportStatus status).isHealthy <;> simp

theorem configRemotes_healthOk (h : m.HealthOk) (remotes : List Remote) :
    (m.configRemotes remotes).HealthOk := by
  have hadd := (addRemotes_sameMarks m remotes).healthOk h
  simp only [configRemotes]
  generalize m.addRemotes remotes = m' at hadd ⊢
  refine ⟨fun a => ?_, nodup_filter hadd.distinct _, fun a p hp => ?_⟩
  · have hguy := hadd.unhealthy a
    simp only [List.mem_filter, Bool.or_eq_true]
    constructor
    · rintro ⟨guy, ⟨hmem, hkeep⟩, rfl⟩
      obtain ⟨p, hp, hne⟩ := hguy.mp ⟨guy, hmem, rfl⟩
      rw [hp] at hkeep
      exact ⟨p, by simpa [hp] using hkeep, hne⟩
    · rintro ⟨p, hp, hne⟩
      split_ifs at hp with hknown
      obtain ⟨guy, hmem, rfl⟩ := hguy.mpr ⟨p, hp, hne⟩
      exact ⟨guy, ⟨hmem, .inl hknown⟩, rfl⟩
  · dsimp only at hp
    split_ifs at hp
    exact hadd.marks a p hp

theorem addRemotes_conns (m : ConnsMgr) {remotes : List Remote}
    (hnodup : (remotes.map Remote.addr).Nodup) :
    (∀ r ∈ remotes, (m.addRemotes remotes).conns r.addr =
      some ((m.pool r).setNumLongConnsPerRemote r.longConns)) ∧
    ∀ a, (∀ r ∈ remotes, r.addr ≠ a) → (m.addRemotes remotes).conns a = m.conns a := by
  unfold addRemotes
  induction remotes generalizing m with
  | nil => exact ⟨by simp, fun _ _ => rfl⟩
  | cons r remotes ih =>
    obtain ⟨hnot, hnodup⟩ := List.nodup_cons.mp hnodup
    have hne : ∀ r' ∈ remotes, r'.addr ≠ r.addr := fun r' hr' he =>
      hnot (List.mem_map.mpr ⟨r', hr', he⟩)
    obtain ⟨hmem, hrest⟩ := ih (m.setPool r.addr ((m.pool r).setNumLongConnsPerRemote r.longConns))
      hnodup
    refine ⟨fun r' hr' => ?_, fun a ha => ?_⟩
    · rcases List.mem_cons.mp hr' with rfl | hr'
      · refine (hrest r'.addr hne).trans ?_
        simp [setPool]
      · refine (hmem r' hr').trans ?_
        simp [pool, setPool, hne r' hr']
    · refine (hrest a fun r' hr' => ha r' (List.mem_cons_of_mem _ hr')).trans ?_
      simp [setPool, Ne.symm (ha r List.mem_cons_self)]

theorem configRemotes_conns (m : ConnsMgr) (remotes : List Remote) (a : Addr) :
    (m.configRemotes remotes).conns a =
      if ∃ r ∈ remotes, r.addr = a then (m.addRemotes remotes).conns a else none := by
  simp [configRemotes]

theorem configRemotes_get (m : ConnsMgr) {remotes : List Remote}
    (hnodup : (remotes.map Remote.addr).Nodup) {r : Remote} (hr : r ∈ remotes) :
    (m.configRemotes remotes).conns r.addr =
      some ((m.pool r).setNumLongConnsPerRemote r.longConns) := by
  rw [configRemotes_conns, if_pos ⟨r, hr, rfl⟩, (addRemotes_conns m hnodup).1 r hr]

theorem configRemotes_configured (m : ConnsMgr) {remotes : List Remote}
    (hnodup : (remotes.map Remote.addr).Nodup) :
    Configured m remotes (m.configRemotes remotes) := by
  have hget : ∀ r ∈ remotes, (m.configRemotes remotes).conns r.addr =
      some ((m.pool r).setNumLongConnsPerRemote r.longConns) :=
    fun r hr => configRemotes_get m hnodup hr
  have hkey : ∀ a, ((m.configRemotes remotes).conns a).isSome → ∃ r ∈ remotes, r.addr = a := by
    intro a ha
    rw [configRemotes_conns] at ha
    by_contra hnone
    rw [if_neg hnone] at ha
    cases ha
  refine ⟨fun a => ⟨hkey a, ?_⟩, fun a p p' hp hp' => ?_, fun r hr p' hp' => ?_⟩
  · rintro ⟨r, hr, rfl⟩
    rw [hget r hr]
    rfl
  · obtain ⟨r, hr, rfl⟩ := hkey a (by rw [hp']; rfl)
    rw [hget r hr, pool, hp] at hp'
    obtain rfl := Option.some.inj hp'
    exact ⟨rfl, rfl⟩
  · rw [hget r hr] at hp'
    obtain rfl := Option.some.inj hp'
    rfl

theorem call_healthOk (h : m.HealthOk) (c : Call) : (calls.next m c).HealthOk := by
  cases c with
  | configRemotes remotes => exact configRemotes_healthOk h remotes
  | freeFd remote fd now => exact (freeFd_sameMarks m remote fd now).healthOk h
  | reportStatus remote status => exact reportStatus_healthOk h remote status
  | getFd service failRemotes rand env =>
    simp only [calls, call, Option.map_map]
    cases hg : m.getFd service failRemotes rand env with
    | none => exact h
    | some q => exact (getFd_sameMarks hg).healthOk h

theorem new_healthOk (longConnKeepaliveSec : ℤ) : (new longConnKeepaliveSec).HealthOk :=
  ⟨by simp [new], by simp [new], by simp [new]⟩

/-- After any sequence of calls the unhealthy remotes are the keys of the pools
whose mark is not full, every mark is between 1 and the full mark, and a
configuration then leaves exactly its remotes, with their marks and idle
descriptors. -/
theorem calls_health (longConnKeepaliveSec : ℤ) (cs : List Call)
    (hcs : calls.Admits (.new longConnKeepaliveSec) cs) :
    (calls.exec (.new longConnKeepaliveSec) cs).HealthOk ∧
      ∀ remotes, (remotes.map Remote.addr).Nodup →
        Configured (calls.exec (.new longConnKeepaliveSec) cs) remotes
          (calls.exec (.new longConnKeepaliveSec) (cs ++ [.configRemotes remotes])) := by
  refine ⟨?_, fun remotes hnodup => ?_⟩
  · refine calls.invariant (I := HealthOk) (fun m c hm _ => call_healthOk hm c) ?_ hcs
    exact new_healthOk _
  · simp only [Machine.exec, List.foldl_append, List.foldl_cons, List.foldl_nil]
    exact configRemotes_configured _ hnodup

def remoteAt (n : ℕ) : Remote := ⟨⟨n, 80⟩, 1, 4, 50, 50, 50⟩

/-- One of two remotes fails once and is then taken out of the configuration. -/
def failedRun : List Call :=
  [.configRemotes [remoteAt 1, remoteAt 2], .reportStatus (remoteAt 1) false,
    .freeFd (remoteAt 2) 7 0]

theorem calls_health_failedRun :
    (calls.exec (.new 10) failedRun).unhealthyGuys = [remoteAt 1] ∧
      (calls.exec (.new 10) failedRun).HealthOk ∧
      Configured (calls.exec (.new 10) failedRun) [remoteAt 2]
        (calls.exec (.new 10) (failedRun ++ [.configRemotes [remoteAt 2]])) := by
  obtain ⟨hok, hconf⟩ := calls_health 10 failedRun (by decide)
  exact ⟨by decide, hok, hconf [remoteAt 2] (by decide)⟩

end Magneto.ConnsMgr
