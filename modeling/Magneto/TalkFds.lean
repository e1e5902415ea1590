import Magneto.TalkStep

/-!
# The descriptors of a talk

What becomes of the descriptor a talk is assigned: it is the talk's until the
session closes it. Every other descriptor that the talk holds or the session
closes for it was returned by `GetFd`.
-/

namespace Magneto

variable {P : Protocols}

open EventsDriver (Slot)

def Talk.OwnFd (envs : List Env) (t : Talk P) (fd : ℤ) : Prop :=
  fd ≤ 0 ∨ fd = t.fd ∨ ∃ env ∈ envs, fd = env.getFd.fd

structure Talk.Tracked (envs : List Env) (t u : Talk P) (closed : List ℤ) : Prop where
  service : u.service = t.service
  fd : t.OwnFd envs u.fd
  own : ∀ fd ∈ closed, t.OwnFd envs fd
  held : 0 < t.fd → u.fd = t.fd ∧ u.remote = t.remote ∧ u.peer = t.peer ∨ t.fd ∈ closed

namespace Talk.Tracked

variable {envs : List Env} {t u v : Talk P} {closed closed' : List ℤ}

theorem refl (envs : List Env) (t : Talk P) : t.Tracked envs t [] :=
  ⟨rfl, .inr (.inl rfl), by simp, fun _ => .inl ⟨rfl, rfl, rfl⟩⟩

theorem congr (hs : u.service = t.service) (hf : u.fd = t.fd) (hr : u.remote = t.remote)
    (hp : u.peer = t.peer) : t.Tracked envs u [] :=
  ⟨hs, .inr (.inl hf), by simp, fun _ => .inl ⟨hf, hr, hp⟩⟩

theorem trans (h : t.Tracked envs u closed) (h' : u.Tracked envs v closed') :
    t.Tracked envs v (closed ++ closed') := by
  have hown : ∀ fd, u.OwnFd envs fd → t.OwnFd envs fd := by
    rintro fd (hle | rfl | hget)
    · exact .inl hle
    · exact h.fd
    · exact .inr (.inr hget)
  refine ⟨h'.service.trans h.service, hown _ h'.fd, fun fd hfd => ?_, fun hpos => ?_⟩
  · rcases List.mem_append.mp hfd with hfd | hfd
    · exact h.own fd hfd
    · exact hown fd (h'.own fd hfd)
  · rcases h.held hpos with ⟨hfd, hr, hp⟩ | hmem
    · rcases h'.held (hfd ▸ hpos) with ⟨hfd', hr', hp'⟩ | hmem
      · exact .inl ⟨hfd'.trans hfd, hr'.trans hr, hp'.trans hp⟩
      · exact .inr (List.mem_append_right _ (hfd ▸ hmem))
    · exact .inr (List.mem_append_left _ hmem)

theorem congr_right (h : t.Tracked envs u closed) (hs : v.service = u.service)
    (hf : v.fd = u.fd) (hr : v.remote = u.remote) (hp : v.peer = u.peer) :
    t.Tracked envs v closed := by
  simpa using h.trans (.congr hs hf hr hp)

theorem dropped (hs : u.service = t.service) (hf : u.fd = -1) : t.Tracked envs u [t.fd] :=
  ⟨hs, .inl (by omega), by simp [Talk.OwnFd], fun _ => .inr (by simp)⟩

end Talk.Tracked

open Talk (Tracked)

namespace Session

variable {conf : ConfNormal} {env : Env} {isRetry : Bool} {talk u : Talk P} {o : Option Slot}
  {δ : Log} {envs : List Env}

theorem Connected.tracked {tmp : List Remote} {t : Talk P} {ok : Bool}
    (hc : Connected env talk tmp t) (he : Encoded isRetry t ok u)
    (henv : env ∈ envs) : talk.Tracked envs u [] := by
  cases hc with
  | kept h => cases he <;> exact .congr rfl rfl rfl rfl
  | got h hfd =>
    have hneg : 0 < talk.fd → False := by omega
    cases he <;>
      exact ⟨rfl, .inr (.inr ⟨env, henv, rfl⟩), by simp, fun hpos => (hneg hpos).elim⟩

theorem Opened.tracked (h : Opened conf env isRetry talk o δ u) (henv : env ∈ envs) :
    talk.Tracked envs u δ.closed := by
  cases h with
  | noFd h => exact ⟨rfl, .inl (by simp), by simp, by omega⟩
  | invalid => exact .refl envs talk
  | encode tmp t u hc he => exact (hc.tracked he henv).trans (.congr rfl rfl rfl rfl)
  | late tmp t u hc he => exact (hc.tracked he henv).trans (.congr rfl rfl rfl rfl)
  | refused tmp t u hc he => exact (hc.tracked he henv).trans (.dropped rfl rfl)
  | registered tmp t u hc he => exact hc.tracked he henv

theorem Finished.tracked {succ : Bool} (h : Finished conf env talk succ o δ u)
    (hfd : succ = false → talk.fd = -1) (henv : env ∈ envs) : talk.Tracked envs u δ.closed := by
  cases h with
  | succeeded => exact .congr rfl rfl rfl rfl
  | failed => exact .congr rfl rfl rfl rfl
  | again hr ho =>
    have hneg := hfd rfl
    have hagain : talk.Tracked envs (talk.again env) [] :=
      ⟨rfl, .inl le_rfl, by simp, by omega⟩
    have hopen := hagain.trans (ho.tracked henv)
    exact hopen.congr_right rfl rfl rfl rfl

end Session

theorem AgentSlave.Served.tracked {env : Env} {slot : Slot} {talk u : Talk P} {more : Bool}
    {o : Option Slot} {δ : Log} {envs : List Env} (h : Served env slot talk more o δ u) :
    talk.Tracked envs u δ.closed := by
  cases h with
  | wait hu =>
    obtain ⟨_, _, _, _, rfl⟩ := hu
    exact .congr rfl rfl rfl rfl
  | finish hu =>
    obtain ⟨_, _, _, _, rfl⟩ := hu
    exact .congr rfl rfl rfl rfl
  | fail hu =>
    obtain ⟨_, _, _, _, rfl⟩ := hu
    exact .dropped rfl rfl

theorem Solo.Step.tracked {conf : ConfNormal} {c c' : Solo P} {e : TalkEvent (WriterObj P)}
    {envs : List Env}
    (h : Step conf c e c') (henvs : e.env.toList ⊆ envs) {t : Talk P}
    (hc : t.Tracked envs c.talk c.log.closed) : t.Tracked envs c'.talk c'.log.closed := by
  have hmem : ∀ env, e.env = some env → env ∈ envs := fun env he => henvs (by simp [he])
  cases h with
  | skip => exact hc.congr_right rfl rfl rfl rfl
  | start env hb hs ho => exact (hc.trans (ho.tracked (hmem env rfl))).congr_right rfl rfl rfl rfl
  | wait event env hslot hs => exact hc.trans hs.tracked
  | finish event env hslot hs hm hu hf =>
    refine (hc.trans hs.tracked).trans (hf.tracked (fun he => ?_) (hmem env rfl))
    cases hs with
    | finish => simp at he
    | fail => rfl
  | remove => exact hc
  | expire env hf =>
    have hdrop : t.Tracked envs { c.talk with fd := -1 } (c.log.closed ++ [c.talk.fd]) :=
      hc.trans (.dropped rfl rfl)
    exact hdrop.trans (hf.tracked (fun _ => rfl) (hmem env rfl))
  | share w => exact hc.congr_right rfl rfl rfl rfl

namespace AgentSlave

variable {talks : List (Talk P)} {conf : ConfNormal}

theorem solos_tracked {ctxs : EventCtxPool} (hb : Built talks) {ls : List Label}
    (hrun : (machine P conf).Admits (start ctxs talks) ls) {i : ℕ} {t : Talk P}
    (ht : talks[i]? = some t) : ∃ c, (solos conf ctxs talks ls)[i]? = some c ∧
      t.Tracked (ls.filterMap Label.env) c.talk c.log.closed := by
  refine ⟨_, getElem?_solos ht, ?_⟩
  have htm := List.mem_of_getElem? ht
  refine (Solo.invariant (I := fun c es => es.filterMap TalkEvent.env ⊆ ls.filterMap Label.env ∧
      t.Tracked (ls.filterMap Label.env) c.talk c.log.closed) ?_
    (Solo.start_ok (Built.startable hb t htm)) ⟨(trace_env conf _ ls i).subset, .refl _ t⟩
    ((shows_solos conf ctxs hb hrun).2 i t ht)).2
  intro c e es _ _ _ h hstep
  obtain ⟨he, hes⟩ := List.append_subset.mp (TalkEvent.env_cons e es ▸ h.1)
  exact ⟨hes, hstep.tracked he h.2⟩

end AgentSlave

end Magneto
