import Magneto.TalkSolo
import Magneto.Lib.ListSet

/-!
# A session is the sum of its talks

The session code reads and writes nothing of a session but the event of the talk
it works on and the ends of the logs. So a step on one talk does the same in the
whole session as in the session of this talk only, and every run of the slave is
a run of each of its talks.
-/

namespace Magneto

variable {P : Protocols}

theorem Log.append_assoc (a b c : Log) : (a.append b).append c = a.append (b.append c) := by
  simp [Log.append, Bool.or_assoc]

/-- Two sessions that have done the same since two others: they agree on the
events of some descriptors, and have logged the same. -/
structure Sim (F : ℤ → Prop) (s₀ ℓ₀ s ℓ : Session P) : Prop where
  driver : ∀ fd, F fd → (s.driver fd).map EventsDriver.Slot.anon =
    (ℓ.driver fd).map EventsDriver.Slot.anon
  logs : ∃ δ, s.logs = s₀.logs.append δ ∧ ℓ.logs = ℓ₀.logs.append δ

namespace Sim

variable {F : ℤ → Prop} {s₀ ℓ₀ s ℓ s' ℓ' : Session P}

theorem add (h : Sim F s₀ ℓ₀ s ℓ) (δ : Log) (hs : s'.logs = s.logs.append δ)
    (hℓ : ℓ'.logs = ℓ.logs.append δ) (hd : s'.driver = s.driver) (hd' : ℓ'.driver = ℓ.driver) :
    Sim F s₀ ℓ₀ s' ℓ' := by
  obtain ⟨ε, hε, hε'⟩ := h.logs
  refine ⟨by rw [hd, hd']; exact h.driver, ε.append δ, ?_, ?_⟩
  · rw [hs, hε, Log.append_assoc]
  · rw [hℓ, hε', Log.append_assoc]

theorem fail (h : Sim F s₀ ℓ₀ s ℓ) : Sim F s₀ ℓ₀ s.fail ℓ.fail :=
  h.add ⟨[], [], [], true⟩ (by simp [Session.logs, Session.fail, Log.append])
    (by simp [Session.logs, Session.fail, Log.append]) rfl rfl

theorem bug (h : Sim F s₀ ℓ₀ s ℓ) (b : Bug) : Sim F s₀ ℓ₀ (s.bug b) (ℓ.bug b) :=
  h.add ⟨[], [], [b], false⟩ (by simp [Session.logs, Session.bug, Log.append])
    (by simp [Session.logs, Session.bug, Log.append]) rfl rfl

theorem close (h : Sim F s₀ ℓ₀ s ℓ) (fd : ℤ) : Sim F s₀ ℓ₀ (s.close fd) (ℓ.close fd) :=
  h.add ⟨[], [fd], [], false⟩ (by simp [Session.logs, Session.close, Log.append])
    (by simp [Session.logs, Session.close, Log.append]) rfl rfl

theorem congr (h : Sim F s₀ ℓ₀ s ℓ) (hs : s'.logs = s.logs) (hℓ : ℓ'.logs = ℓ.logs)
    (hd : s'.driver = s.driver) (hd' : ℓ'.driver = ℓ.driver) : Sim F s₀ ℓ₀ s' ℓ' :=
  ⟨by rw [hd, hd']; exact h.driver, by rw [hs, hℓ]; exact h.logs⟩

theorem update (h : Sim F s₀ ℓ₀ s ℓ) (fd : ℤ) {o o' : Option EventsDriver.Slot}
    (ho : o.map EventsDriver.Slot.anon = o'.map EventsDriver.Slot.anon)
    (hs : s'.logs = s.logs) (hℓ : ℓ'.logs = ℓ.logs)
    (hd : s'.driver = Function.update s.driver fd o)
    (hd' : ℓ'.driver = Function.update ℓ.driver fd o') : Sim F s₀ ℓ₀ s' ℓ' := by
  refine ⟨fun x hx => ?_, by rw [hs, hℓ]; exact h.logs⟩
  rw [hd, hd']
  by_cases he : x = fd
  · rw [he, Function.update_self, Function.update_self, ho]
  · rw [Function.update_of_ne he, Function.update_of_ne he, h.driver x hx]

theorem regEventDel (h : Sim F s₀ ℓ₀ s ℓ) (fd : ℤ) :
    Sim F s₀ ℓ₀ { s with driver := s.driver.regEventDel fd }
      { ℓ with driver := ℓ.driver.regEventDel fd } :=
  h.update fd (Eq.refl (Option.map EventsDriver.Slot.anon none)) rfl rfl rfl rfl

end Sim

structure SimResult (F : ℤ → Prop) (s₀ ℓ₀ : Session P) (r q : Session P × Talk P) : Prop where
  sim : Sim F s₀ ℓ₀ r.1 q.1
  talk : r.2 = q.2

namespace Session

variable {F : ℤ → Prop} {s₀ ℓ₀ s ℓ : Session P}

theorem resetTalkReg_sim (conf : ConfNormal) (env : Env) (tmp : List Remote) (talk : Talk P)
    (h : Sim F s₀ ℓ₀ s ℓ) :
    SimResult F s₀ ℓ₀ (resetTalkReg conf env tmp s talk) (resetTalkReg conf env tmp ℓ talk) := by
  have hpool : Sim F s₀ ℓ₀ { s with poolEventCtxs := (s.poolEventCtxs.get () ()).2 }
      { ℓ with poolEventCtxs := (ℓ.poolEventCtxs.get () ()).2 } := h.congr rfl rfl rfl rfl
  unfold resetTalkReg
  by_cases hlate : talk.endtimeMs - env.now ≤ 0
  · simp only [hlate, ↓reduceIte]
    exact ⟨hpool.fail, rfl⟩
  · simp only [hlate, ↓reduceIte]
    cases hok : env.addOk with
    | true =>
      simp only [EventsDriver.regEventAdd, ↓reduceIte]
      exact ⟨hpool.update talk.fd (by rfl) rfl rfl rfl rfl, rfl⟩
    | false =>
      simp only [EventsDriver.regEventAdd, Bool.false_eq_true, ↓reduceIte]
      exact ⟨((hpool.regEventDel talk.fd).close talk.fd).fail, rfl⟩

theorem resetTalkEncode_sim (conf : ConfNormal) (env : Env) (tmp : List Remote) (isRetry : Bool)
    (talk : Talk P) (h : Sim F s₀ ℓ₀ s ℓ) :
    SimResult F s₀ ℓ₀ (resetTalkEncode conf env tmp isRetry s talk)
      (resetTalkEncode conf env tmp isRetry ℓ talk) := by
  unfold resetTalkEncode
  split
  · dsimp only
    split_ifs
    · exact resetTalkReg_sim conf env _ _ h
    · exact ⟨h.fail, rfl⟩
  · exact ⟨h.bug _, rfl⟩
  · exact resetTalkReg_sim conf env _ _ h

theorem resetTalk_sim (conf : ConfNormal) (env : Env) (isRetry : Bool) (talk : Talk P)
    (h : Sim F s₀ ℓ₀ s ℓ) :
    SimResult F s₀ ℓ₀ (resetTalk conf env isRetry s talk) (resetTalk conf env isRetry ℓ talk) := by
  unfold resetTalk
  dsimp only
  split_ifs
  · exact resetTalkEncode_sim conf env _ isRetry _ h
  · exact ⟨h.fail, rfl⟩
  · exact ⟨(h.bug _).fail, rfl⟩
  · exact resetTalkEncode_sim conf env _ isRetry _ h

theorem reportStatus_sim (env : Env) (succ : Bool) (talk : Talk P) (h : Sim F s₀ ℓ₀ s ℓ) :
    SimResult F s₀ ℓ₀ (reportStatus env succ s talk) (reportStatus env succ ℓ talk) := by
  unfold reportStatus
  split
  · rename_i remote _
    exact ⟨h.add ⟨[(remote, succ)], [], [], false⟩ (by simp [logs, Log.append])
      (by simp [logs, Log.append]) rfl rfl, rfl⟩
  · exact ⟨h, rfl⟩

theorem retryTalk_sim (conf : ConfNormal) (env : Env) (talk : Talk P) (h : Sim F s₀ ℓ₀ s ℓ) :
    SimResult F s₀ ℓ₀ (retryTalk conf env s talk) (retryTalk conf env ℓ talk) := by
  have hclose : Sim F s₀ ℓ₀ (if 0 < talk.fd then s.close talk.fd else s)
      (if 0 < talk.fd then ℓ.close talk.fd else ℓ) := by
    split_ifs
    · exact h.close _
    · exact h
  unfold retryTalk
  dsimp only
  generalize (if 0 < talk.fd then s.close talk.fd else s) = s' at hclose ⊢
  generalize (if 0 < talk.fd then ℓ.close talk.fd else ℓ) = ℓ' at hclose ⊢
  obtain ⟨hsim, htalk⟩ := resetTalk_sim conf env true { talk with
    retry := talk.retry - 1
    fd := 0
    error := .kOk
    attempt := .fresh
    past := talk.past ++ [talk.attempt] } hclose
  rw [htalk]
  split_ifs
  · exact ⟨hsim.congr rfl rfl rfl rfl, rfl⟩
  · exact ⟨hsim.fail, rfl⟩

theorem finishTalk_sim (conf : ConfNormal) (env : Env) (succ : Bool) (talk : Talk P)
    (h : Sim F s₀ ℓ₀ s ℓ) (hs : s.numTalksDone < s.talks.length)
    (hℓ : ℓ.numTalksDone < ℓ.talks.length) :
    SimResult F s₀ ℓ₀ ((finishTalk conf env succ s talk).1, (finishTalk conf env succ s talk).2.1)
      ((finishTalk conf env succ ℓ talk).1, (finishTalk conf env succ ℓ talk).2.1) := by
  have hcount : Sim F s₀ ℓ₀ { s with numTalksDone := s.numTalksDone + 1 }
      { ℓ with numTalksDone := ℓ.numTalksDone + 1 } := h.congr rfl rfl rfl rfl
  obtain ⟨hsim, htalk⟩ := reportStatus_sim env succ { talk with counted := true } hcount
  unfold finishTalk
  simp only [show ¬ s.talks.length < s.numTalksDone + 1 by omega,
    show ¬ ℓ.talks.length < ℓ.numTalksDone + 1 by omega, ↓reduceIte]
  rw [htalk]
  split_ifs
  · exact ⟨hsim, htalk⟩
  · exact retryTalk_sim conf env _ hsim
  · exact ⟨hsim.fail, rfl⟩

theorem resetOne_sim (conf : ConfNormal) (env : Env) (talk : Talk P) (h : Sim F s₀ ℓ₀ s ℓ) :
    SimResult F s₀ ℓ₀ (resetOne conf env s talk) (resetOne conf env ℓ talk) := by
  obtain ⟨hsim, htalk⟩ := resetTalk_sim conf env false talk h
  unfold resetOne
  dsimp only
  rw [htalk]
  split_ifs
  · exact ⟨h.congr rfl rfl rfl rfl, rfl⟩
  · exact ⟨hsim.congr rfl rfl rfl rfl, rfl⟩
  · exact ⟨hsim, htalk⟩

end Session

namespace AgentSlave

variable {F : ℤ → Prop} {s₀ ℓ₀ s ℓ : Session P} {ctx ctx' : EventCtx}

structure SimHandled (F : ℤ → Prop) (s₀ ℓ₀ : Session P) (h k : Handled P) : Prop where
  more : h.more = k.more
  sim : Sim F s₀ ℓ₀ h.session k.session
  talk : h.talk = k.talk

theorem errorHandle_sim (talk : Talk P) (error : ErrorNo) (h : Sim F s₀ ℓ₀ s ℓ) :
    SimHandled F s₀ ℓ₀ (errorHandle s talk error) (errorHandle ℓ talk error) := by
  unfold errorHandle
  dsimp only
  split_ifs
  · exact ⟨rfl, (h.regEventDel talk.fd).close talk.fd, rfl⟩
  · exact ⟨rfl, h.regEventDel talk.fd, rfl⟩

theorem checkTimeout_anon (now timeleft : ℤ) (hctx : ctx.anon = ctx'.anon) :
    (ctx.checkTimeout now timeleft).1 = (ctx'.checkTimeout now timeleft).1 ∧
      (ctx.checkTimeout now timeleft).2.anon = (ctx'.checkTimeout now timeleft).2.anon := by
  simp only [EventCtx.anon, EventCtx.mk.injEq, true_and] at hctx
  obtain ⟨hfd, hleft, hlast, hn⟩ := hctx
  unfold EventCtx.checkTimeout
  dsimp only
  rw [hleft, hlast]
  split_ifs <;> simp [EventCtx.anon, hfd, hleft, hlast, hn]

theorem waitMore_sim (env : Env) (timeleft : ℤ) (direction : EventsDriver.Direction)
    (talk : Talk P) (h : Sim F s₀ ℓ₀ s ℓ) (hctx : ctx.anon = ctx'.anon) (hF : F talk.fd) :
    SimHandled F s₀ ℓ₀ (waitMore env timeleft direction ctx s talk)
      (waitMore env timeleft direction ctx' ℓ talk) := by
  obtain ⟨hok, hanon⟩ := checkTimeout_anon env.now timeleft hctx
  unfold waitMore
  dsimp only
  generalize ctx.checkTimeout env.now timeleft = c at hok hanon ⊢
  generalize ctx'.checkTimeout env.now timeleft = c' at hok hanon ⊢
  have hleft : c.2.anon.timeleftMs = c'.2.anon.timeleftMs := by rw [hanon]
  have hleft : c.2.timeleftMs = c'.2.timeleftMs := hleft
  have hexpire : (s.driver talk.fd).bind (·.expireTimeMs) =
      (ℓ.driver talk.fd).bind (·.expireTimeMs) := by
    have hslot := congrArg (Option.bind · EventsDriver.Slot.expireTimeMs) (h.driver talk.fd hF)
    rw [Option.bind_map, Option.bind_map] at hslot
    exact hslot
  rw [hok]
  cases c'.1 with
  | false => exact errorHandle_sim talk .kTimeout h
  | true =>
    cases hmod : env.modOk with
    | true =>
      simp only [EventsDriver.regEventMod, ↓reduceIte, Bool.not_true, Bool.false_eq_true]
      refine ⟨rfl, h.update talk.fd ?_ rfl rfl rfl rfl, rfl⟩
      simp only [Option.map_some, EventsDriver.Slot.anon, hanon, hleft, hexpire]
    | false =>
      simp only [EventsDriver.regEventMod, Bool.false_eq_true, ↓reduceIte, Bool.not_true]
      exact errorHandle_sim talk .kOther (h.regEventDel talk.fd)

theorem handleSessionEventRead_sim (env : Env) (talk : Talk P) (h : Sim F s₀ ℓ₀ s ℓ)
    (hctx : ctx.anon = ctx'.anon) (hF : F talk.fd) :
    SimHandled F s₀ ℓ₀ (handleSessionEventRead env ctx s talk)
      (handleSessionEventRead env ctx' ℓ talk) := by
  unfold handleSessionEventRead
  split
  · exact ⟨rfl, h.bug _, rfl⟩
  · dsimp only
    split_ifs
    · exact errorHandle_sim _ _ h
    · exact errorHandle_sim _ _ h
    · exact waitMore_sim env _ _ _ h hctx hF
    · exact errorHandle_sim _ _ h

theorem turnToRead_sim (env : Env) (talk : Talk P) (h : Sim F s₀ ℓ₀ s ℓ)
    (hctx : ctx.anon = ctx'.anon) (hF : F talk.fd) :
    SimHandled F s₀ ℓ₀ (turnToRead env ctx s talk) (turnToRead env ctx' ℓ talk) := by
  unfold turnToRead
  dsimp only
  rw [(checkTimeout_anon env.now _ hctx).1]
  split_ifs
  · exact errorHandle_sim _ _ h
  · exact waitMore_sim env _ _ _ (h.bug _) hctx hF
  · exact waitMore_sim env _ _ _ h hctx hF

theorem handleSessionEventWrite_sim (env : Env) (talk : Talk P) (h : Sim F s₀ ℓ₀ s ℓ)
    (hctx : ctx.anon = ctx'.anon) (hF : F talk.fd) :
    SimHandled F s₀ ℓ₀ (handleSessionEventWrite env ctx s talk)
      (handleSessionEventWrite env ctx' ℓ talk) := by
  unfold handleSessionEventWrite
  split
  · exact ⟨rfl, h.bug _, rfl⟩
  · dsimp only
    split_ifs
    · exact turnToRead_sim env _ h hctx hF
    · exact errorHandle_sim _ _ (h.bug _)
    · exact errorHandle_sim _ _ h
    · exact waitMore_sim env _ _ _ h hctx hF
    · exact errorHandle_sim _ _ h

theorem handleSessionEvent_sim (env : Env) (event : EventsDriver.Event) (talk : Talk P)
    (h : Sim F s₀ ℓ₀ s ℓ) (hctx : ctx.anon = ctx'.anon) (hF : F talk.fd) :
    SimHandled F s₀ ℓ₀ (handleSessionEvent env event ctx s talk)
      (handleSessionEvent env event ctx' ℓ talk) := by
  unfold handleSessionEvent
  split_ifs
  · exact errorHandle_sim _ _ h
  · split
    · exact waitMore_sim env _ _ _ h hctx hF
    · exact handleSessionEventRead_sim env talk h hctx hF
    · exact handleSessionEventWrite_sim env talk h hctx hF
    · exact ⟨rfl, h.bug _, rfl⟩

theorem errorHandle_count (s : Session P) (talk : Talk P) (error : ErrorNo) :
    (errorHandle s talk error).session.talks = s.talks ∧
      (errorHandle s talk error).session.numTalksDone = s.numTalksDone := by
  unfold errorHandle
  dsimp only
  split_ifs <;> exact ⟨rfl, rfl⟩

theorem waitMore_count (env : Env) (timeleft : ℤ) (direction : EventsDriver.Direction)
    (ctx : EventCtx) (s : Session P) (talk : Talk P) :
    (waitMore env timeleft direction ctx s talk).session.talks = s.talks ∧
      (waitMore env timeleft direction ctx s talk).session.numTalksDone = s.numTalksDone := by
  unfold waitMore
  dsimp only
  split_ifs
  · exact errorHandle_count _ _ _
  · exact ⟨rfl, rfl⟩
  · exact errorHandle_count _ _ _

theorem handleSessionEvent_count (env : Env) (event : EventsDriver.Event) (ctx : EventCtx)
    (s : Session P) (talk : Talk P) :
    (handleSessionEvent env event ctx s talk).session.talks = s.talks ∧
      (handleSessionEvent env event ctx s talk).session.numTalksDone = s.numTalksDone := by
  unfold handleSessionEvent
  split_ifs
  · exact errorHandle_count _ _ _
  split
  · exact waitMore_count _ _ _ _ _ _
  · unfold handleSessionEventRead
    split
    · exact ⟨rfl, rfl⟩
    · dsimp only
      split_ifs <;> first | exact errorHandle_count _ _ _ | exact waitMore_count _ _ _ _ _ _
  · unfold handleSessionEventWrite
    split
    · exact ⟨rfl, rfl⟩
    · dsimp only
      split_ifs
      · unfold turnToRead
        dsimp only
        split_ifs
        · exact errorHandle_count _ _ _
        · exact waitMore_count _ _ _ _ _ _
        · exact waitMore_count _ _ _ _ _ _
      · exact errorHandle_count _ _ _
      · exact errorHandle_count _ _ _
      · exact waitMore_count _ _ _ _ _ _
      · exact errorHandle_count _ _ _
  · exact ⟨rfl, rfl⟩

theorem checkTalk_sim (conf : ConfNormal) (env : Env) (event : EventsDriver.Event)
    (talk : Talk P) (h : Sim F s₀ ℓ₀ s ℓ) (hctx : ctx.anon = ctx'.anon) (hF : F talk.fd)
    (hs : s.numTalksDone < s.talks.length) (hℓ : ℓ.numTalksDone < ℓ.talks.length) :
    SimResult F s₀ ℓ₀ (checkTalk conf env event ctx s talk)
      (checkTalk conf env event ctx' ℓ talk) := by
  obtain ⟨hmore, hsim, htalk⟩ := handleSessionEvent_sim env event talk h hctx hF
  obtain ⟨ht, hd⟩ := handleSessionEvent_count env event ctx s talk
  obtain ⟨ht', hd'⟩ := handleSessionEvent_count env event ctx' ℓ talk
  unfold checkTalk
  dsimp only
  generalize handleSessionEvent env event ctx s talk = r at hmore hsim htalk ht hd ⊢
  generalize handleSessionEvent env event ctx' ℓ talk = q at hmore hsim htalk ht' hd' ⊢
  rw [hmore, htalk]
  split_ifs
  · exact ⟨hsim, rfl⟩
  · have hfree : Sim F s₀ ℓ₀ (freeEventCtx r.session ctx) (freeEventCtx q.session ctx') :=
      hsim.congr rfl rfl rfl rfl
    refine Session.finishTalk_sim conf env _ q.talk hfree ?_ ?_
    · exact hd.symm ▸ ht.symm ▸ hs
    · exact hd'.symm ▸ ht'.symm ▸ hℓ

theorem expireTalk_sim (conf : ConfNormal) (env : Env) (talk : Talk P) (h : Sim F s₀ ℓ₀ s ℓ)
    (hs : s.numTalksDone < s.talks.length) (hℓ : ℓ.numTalksDone < ℓ.talks.length) :
    SimResult F s₀ ℓ₀ (expireTalk conf env s talk) (expireTalk conf env ℓ talk) :=
  Session.finishTalk_sim conf env false { talk with fd := -1 } (h.close talk.fd) hs hℓ

end AgentSlave

def Solo.follow (u : Talk P) (c : Solo P) : Solo P := { c with talk := u.follow c.talk }

structure Session.Shows (s : Session P) (pc : Pc) (cs : List (Solo P)) : Prop where
  talks : s.talks = cs.map Solo.talk
  slot : ∀ c ∈ cs, c.slot = (s.driver c.talk.fd).map EventsDriver.Slot.anon
  place : ∀ c ∈ cs, c.place = pc.place c.talk.noTalk
  reports : s.reports.Perm (cs.flatMap (·.log.reports))
  closed : s.closed.Perm (cs.flatMap (·.log.closed))
  bugs : s.bugs.Perm (cs.flatMap (·.log.bugs))
  failed : s.hasFailure = cs.any (·.log.failed)

namespace Session.Shows

variable {A : Tolerance} {s : Session P} {pc : Pc} {cs : List (Solo P)} {n : ℕ} {c : Solo P}

theorem get (h : s.Shows pc cs) (hc : cs[n]? = some c) : s.talks[n]? = some c.talk := by
  rw [h.talks, List.getElem?_map, hc]
  rfl

def Near (env : Env) (talk : Talk P) (fd : ℤ) : Prop :=
  fd = talk.fd ∨ fd ≤ 0 ∨ fd = env.getFd.fd

theorem sim (h : s.Shows pc cs) (hi : s.Inv A pc) (hc : cs[n]? = some c) {env : Env}
    (hfresh : AgentSlave.Fresh s n env) :
    Sim (Near env c.talk) s c.session s c.session := by
  have hslot := h.slot c (List.mem_of_getElem? hc)
  have hself : (c.session.driver c.talk.fd).map EventsDriver.Slot.anon =
      (s.driver c.talk.fd).map EventsDriver.Slot.anon := by
    simp only [Solo.session, ↓reduceIte, hslot, Option.map_map]
    congr 1
  have hother : ∀ fd, fd ≠ c.talk.fd → c.session.driver fd = none := fun fd hne => if_neg hne
  refine ⟨fun fd hfd => ?_, .empty, by simp [logs, Log.append, Log.empty],
    by simp [logs, Log.append, Log.empty]⟩
  by_cases he : fd = c.talk.fd
  · rw [he, hself]
  · rw [hother fd he]
    have hnone : s.driver fd = none := by
      rcases hfd with hfd | hle | rfl
      · exact absurd hfd he
      · exact hi.nonpos fd hle
      · by_cases hpos : 0 < env.getFd.fd
        · have hu := (hi.unregistered (h.get hc) hfresh).new hpos
          rwa [EventsDriver.regEventDel_of_ne _ he] at hu
        · exact hi.nonpos _ (by omega)
    rw [hnone]

theorem mem_work (h : s.Shows pc cs) (hi : s.Inv A pc) (u : Talk P) (d : Solo P) {x : Solo P}
    (hx : x ∈ (cs.map (Solo.follow u)).set n d) :
    x = d ∨ ∃ y ∈ cs, y.talk.noTalk ≠ n ∧ y.follow u = x := by
  obtain ⟨i, hx⟩ := List.mem_iff_getElem?.mp hx
  rw [List.getElem?_set, List.getElem?_map] at hx
  split_ifs at hx with hni
  · exact .inl (Option.some.inj hx).symm
  · obtain ⟨y, hy, rfl⟩ := Option.map_eq_some_iff.mp hx
    exact .inr ⟨y, List.mem_of_getElem? hy, fun he => hni (he ▸ hi.index i y.talk (h.get hy)), rfl⟩

/-- A step on one talk is the same step of this talk on its own. -/
theorem work (h : s.Shows pc cs) (hi : s.Inv A pc) (hc : cs[n]? = some c) {env : Env}
    (hfresh : AgentSlave.Fresh s n env) {s' : Session P} {u : Talk P} {q : Session P × Talk P}
    (hsim : SimResult (Near env c.talk) s c.session (s', u) q)
    (hw : Worked A env (AgentSlave.unregister s c.talk.fd) c.talk s' u) {pc' : Pc}
    (hstarted : pc'.place n = .started) (hothers : ∀ m, m ≠ n → pc'.place m = pc.place m) :
    (s'.setTalk u).Shows pc' ((cs.map (Solo.follow u)).set n (.of q)) := by
  have hget := h.get hc
  have hun : u.noTalk = n := hw.noTalk.trans (hi.index n _ hget)
  obtain ⟨⟨hdriver, δ, hδ, hδ'⟩, rfl : u = q.2⟩ := hsim
  simp only [logs, Log.append, Log.mk.injEq] at hδ hδ'
  obtain ⟨hreports, hclosed, hbugs, hfailed⟩ := hδ
  obtain ⟨hreports', hclosed', hbugs', hfailed'⟩ := hδ'
  have hgetf : (cs.map (Solo.follow q.2))[n]? = some (c.follow q.2) := by
    rw [List.getElem?_map, hc]
    rfl
  have hperm : ∀ {β : Type} (f : Log → List β) {L L' ε : List β},
      L.Perm (cs.flatMap fun c => f c.log) → L' = L ++ ε → f (Solo.of q).log = f c.log ++ ε →
      L'.Perm (((cs.map (Solo.follow q.2)).set n (.of q)).flatMap fun c => f c.log) := by
    intro β f L L' ε hL hL' hε
    rw [hL']
    have hflat : (cs.map (Solo.follow q.2)).flatMap (fun c => f c.log) =
        cs.flatMap fun c => f c.log := List.flatMap_map (Solo.follow q.2) _ cs
    rw [← hflat] at hL
    exact (hL.append_right ε).trans
      (List.flatMap_set_append (fun c : Solo P => f c.log) hgetf hε).symm
  refine ⟨?_, fun x hx => ?_, fun x hx => ?_, ?_, ?_, ?_, ?_⟩
  · rw [Session.Inv.talks_setTalk hw.talks hun, List.map_set, List.map_map]
    show (s.talks.map q.2.follow).set n q.2 = _
    rw [h.talks, List.map_map]
    rfl
  · rcases h.mem_work hi _ _ hx with rfl | ⟨y, hy, hne, rfl⟩
    · refine (hdriver q.2.fd ?_).symm
      rcases hw.fd with hfd | hfd | ⟨-, hfd⟩
      · exact .inl hfd
      · exact .inr (.inl hfd)
      · exact .inr (.inr hfd)
    · have hyt : y.talk ∈ s.talks := h.talks ▸ List.mem_map_of_mem hy
      show y.slot = (s'.driver y.talk.fd).map EventsDriver.Slot.anon
      rw [h.slot y hy, hi.driver_frame hget hw hfresh hyt hne]
  · rcases h.mem_work hi _ _ hx with rfl | ⟨y, hy, hne, rfl⟩
    · exact (hun ▸ hstarted).symm
    · show y.place = pc'.place y.talk.noTalk
      rw [h.place y hy, hothers _ hne]
  · exact hperm Log.reports h.reports hreports hreports'
  · exact hperm Log.closed h.closed hclosed hclosed'
  · exact hperm Log.bugs h.bugs hbugs hbugs'
  · have hany : (cs.map (Solo.follow q.2)).any (fun c => c.log.failed) =
        cs.any fun c => c.log.failed := List.any_map
    rw [List.any_set_or (fun c : Solo P => c.log.failed) hgetf hfailed', hany, ← h.failed]
    exact hfailed

end Session.Shows

namespace AgentSlave

open Session (Shows)

variable {talks : List (Talk P)} {conf : ConfNormal} {a : AgentSlave P} {cs : List (Solo P)}

def solosNext (conf : ConfNormal) (a : AgentSlave P) (l : Label) (cs : List (Solo P)) :
    List (Solo P) :=
  cs.mapIdx fun i c => (Solo.machine P conf).exec c (a.eventsOf conf l i)

structure WorksOn (conf : ConfNormal) (a : AgentSlave P) (l : Label) (n : ℕ)
    (e : TalkEvent (WriterObj P)) (u : Talk P) : Prop where
  target : a.target l = some n
  own : ∀ i, a.ownEvents l i = if i = n then [e] else []
  left : (next conf a l).session.talks[n]? = some u

namespace WorksOn

variable {l : Label} {n : ℕ} {e : TalkEvent (WriterObj P)} {u : Talk P}

theorem eventsOf_self (h : WorksOn conf a l n e u) : a.eventsOf conf l n = [e] := by
  simp [eventsOf, h.own, sharedWrite, h.target]

theorem eventsOf_other (h : WorksOn conf a l n e u) {i : ℕ} (hi : i ≠ n) {t : Talk P}
    (ht : a.session.talks[i]? = some t) :
    a.eventsOf conf l i =
      ((u.protocolWrite.filter fun w => t.writeId = some w.id).toList.map .share) := by
  simp [eventsOf, h.own, sharedWrite, h.target, h.left, hi, Ne.symm hi, ht]

theorem exec_other (h : WorksOn conf a l n e u) {i : ℕ} (hi : i ≠ n) {c : Solo P}
    (hc : a.session.talks[i]? = some c.talk) :
    (Solo.machine P conf).exec c (a.eventsOf conf l i) = c.follow u := by
  rw [h.eventsOf_other hi hc]
  cases hu : u.protocolWrite with
  | none =>
    have hnone : u.follow c.talk = c.talk := by
      refine Talk.follow_of_sees fun hid => ?_
      rw [hu]
      exact Option.map_eq_none_iff.mp (hid.trans (by rw [Talk.writeId, hu]; rfl))
    rw [Solo.follow, hnone]
    rfl
  | some w =>
    by_cases hid : c.talk.writeId = some w.id
    · have hsee : u.follow c.talk =
          { c.talk with protocolWrite := c.talk.protocolWrite.map w.follow } := by
        rw [Talk.follow, hu]
        rfl
      rw [Solo.follow, hsee, Option.filter_some_pos (by simpa using hid)]
      rfl
    · have hne : u.follow c.talk = c.talk :=
        Talk.follow_of_ne fun he => hid (he.trans (by rw [Talk.writeId, hu]; rfl))
      rw [Solo.follow, hne, Option.filter_some_neg (by simpa using hid)]
      rfl

theorem solosNext (h : WorksOn conf a l n e u) (hs : a.session.talks = cs.map Solo.talk)
    {c : Solo P} (hc : cs[n]? = some c) :
    solosNext conf a l cs = (cs.map (Solo.follow u)).set n (c.next conf e) := by
  rw [AgentSlave.solosNext, List.mapIdx_eq_set hc (g := Solo.follow u), h.eventsOf_self]
  · rfl
  · intro j d hd hj
    exact h.exec_other hj (by rw [hs, List.getElem?_map, hd]; rfl)

theorem admits (h : WorksOn conf a l n e u) (hs : a.session.talks = cs.map Solo.talk)
    {c : Solo P} (hc : cs[n]? = some c) (hen : c.Enabled e) :
    ∀ i d, cs[i]? = some d → (Solo.machine P conf).Admits d (a.eventsOf conf l i) := by
  intro i d hd
  by_cases hi : i = n
  · subst hi
    obtain rfl : c = d := Option.some.inj (hc.symm.trans hd)
    rw [h.eventsOf_self]
    exact ⟨hen, trivial⟩
  · rw [h.eventsOf_other hi (t := d.talk) (by rw [hs, List.getElem?_map, hd]; rfl)]
    cases u.protocolWrite.filter fun w => d.talk.writeId = some w.id with
    | none => trivial
    | some w => exact ⟨trivial, trivial⟩

end WorksOn

theorem shows_solo {n : ℕ} {t : Talk P} {s : Session P} {pc : Pc} (h : s.Shows pc cs)
    (ht : s.talks[n]? = some t) : ∃ c, cs[n]? = some c ∧ c.talk = t := by
  rw [h.talks, List.getElem?_map] at ht
  exact Option.map_eq_some_iff.mp ht

theorem shows_endReset {i : ℕ} (h : a.session.Shows (.reset i) cs)
    (hi : a.session.Inv .all (.reset i)) : (endReset i a).session.Shows (endReset i a).pc cs := by
  have hpoll : ¬ i < a.session.talks.length → a.session.Shows .poll cs := by
    intro hlen
    refine { h with place := fun c hc => (h.place c hc).trans ?_ }
    have hlt := (List.getElem?_eq_some_iff.mp
      (hi.lookup (h.talks ▸ List.mem_map_of_mem hc : c.talk ∈ a.session.talks))).1
    exact if_neg (by omega)
  unfold endReset
  dsimp only
  split_ifs with hlt hdone
  · exact h
  · exact hpoll hlt
  · exact hpoll hlt

theorem shows_reset (h : a.session.Shows a.pc cs) (hi : a.Inv .all talks) {env : Env}
    (hl : Enabled a (.reset env)) :
    (next conf a (.reset env)).session.Shows (next conf a (.reset env)).pc
        (solosNext conf a (.reset env) cs) ∧
      ∀ i d, cs[i]? = some d → (Solo.machine P conf).Admits d (a.eventsOf conf (.reset env) i) := by
  obtain ⟨n, t, hpc, hget, hstart, hnone, hfresh⟩ := hi.reset_target hl
  obtain ⟨c, hc, rfl⟩ := shows_solo h hget
  have hsess := hi.session
  have hn : c.talk.noTalk = n := hsess.index n _ hget
  have hu := hsess.unregistered_of_none hget hfresh hnone
  have hw := @Session.resetOne_worked P .all conf env _ _ hstart (.inl trivial) hu
  have hon : WorksOn conf a (.reset env) n (.reset env)
      (Session.resetOne conf env a.session c.talk).2 := {
    target := by rw [target, hpc]; rfl
    own := fun i => by simp only [ownEvents, hpc, Pc.resetting, Option.some.injEq, eq_comm]
    left := by
      simp only [next, hpc, hget, endReset_session]
      exact Session.Inv.get_setTalk hget hw.talks (hw.noTalk.trans hn) }
  have hdel : unregister a.session c.talk.fd = a.session := unregister_of_none hnone
  have hsim := Session.resetOne_sim conf env c.talk (h.sim hsess hc hfresh)
  rw [hpc] at h hsess
  have hothers : ∀ m, m ≠ n → (Pc.reset (n + 1)).place m = (Pc.reset n).place m :=
    fun _ => Pc.place_reset_of_ne
  have hstarted := Pc.place_reset_self n
  refine ⟨?_, hon.admits h.talks hc ?_⟩
  · rw [hon.solosNext h.talks hc]
    simp only [next, hpc, hget]
    refine shows_endReset ?_ ?_
    · exact h.work hsess hc hfresh hsim (hdel.symm ▸ hw) hstarted hothers
    · exact hsess.work (.reset (n + 1)) hget hstart.counted (hdel.symm ▸ hw)
        (Session.resetOne_unwritten hstart) hfresh hstarted
        hothers ⟨.nil, by simp [Pc.pending]⟩
  · exact (h.place c (List.mem_of_getElem? hc)).trans (if_pos hn.ge)

theorem shows_ready (h : a.session.Shows a.pc cs) (hi : a.Inv .all talks) {fd : ℤ}
    {event : EventsDriver.Event} {env : Env} (hl : Enabled a (.ready fd event env)) :
    (next conf a (.ready fd event env)).session.Shows (next conf a (.ready fd event env)).pc
        (solosNext conf a (.ready fd event env) cs) ∧
      ∀ i d, cs[i]? = some d →
        (Solo.machine P conf).Admits d (a.eventsOf conf (.ready fd event env) i) := by
  obtain ⟨slot, t, hd, hget, rfl, hw, hn, htm, hfresh⟩ := hi.ready_target hl
  obtain ⟨c, hc, rfl⟩ := shows_solo h hget
  have hsess := hi.session
  have hslot : c.slot = some slot.anon := by
    rw [h.slot c (List.mem_of_getElem? hc), hd]
    rfl
  have hlt := hsess.done_lt (List.mem_of_getElem? hget) hw.counted
  obtain ⟨hwork, heq⟩ := @checkTalk_worked P .all conf env event _ _ _ hw hd hn htm (.inl trivial)
    (hsess.unregistered hget hfresh) hlt
  have hon : WorksOn conf a (.ready c.talk.fd event env) slot.ctx.noTalk (.ready event env)
      (checkTalk conf env event slot.ctx a.session c.talk).2 := {
    target := by rw [target, hd]; rfl
    own := fun i => by simp only [ownEvents, hd, Option.map_some, Option.some.injEq, eq_comm]
    left := by
      simp only [next, hd, hget, heq, endSession_session]
      exact Session.Inv.get_setTalk hget hwork.talks (hwork.noTalk.trans hn.symm) }
  have hctx : slot.ctx.anon = slot.anon.ctx.anon := rfl
  have hsim := checkTalk_sim conf env event c.talk (h.sim hsess hc hfresh) hctx (.inl rfl) hlt
    (by simp [Solo.session])
  refine ⟨?_, hon.admits h.talks hc ?_⟩
  · rw [hon.solosNext h.talks hc]
    simp only [next, hd, hget, heq, endSession_session, endSession_pc, Solo.next, hslot,
      Option.elim_some]
    exact h.work hsess hc hfresh hsim hwork (by rw [hl.1]; rfl) fun _ _ => rfl
  · refine ⟨?_, by rw [hslot]; rfl⟩
    rw [h.place c (List.mem_of_getElem? hc), hl.1]
    rfl

theorem shows_cleanTimeout (h : a.session.Shows a.pc cs) (hi : a.Inv .all talks) {env : Env}
    (hl : Enabled a (.cleanTimeout env)) :
    (next conf a (.cleanTimeout env)).session.Shows (next conf a (.cleanTimeout env)).pc
        (solosNext conf a (.cleanTimeout env) cs) ∧
      ∀ i d, cs[i]? = some d →
        (Solo.machine P conf).Admits d (a.eventsOf conf (.cleanTimeout env) i) := by
  obtain ⟨ctx, timeouts, t, hpc, hget, hw, hnone, hfresh⟩ := hi.clean_target hl
  obtain ⟨c, hc, rfl⟩ := shows_solo h hget
  have hsess := hi.session
  have hu := hsess.unregistered_of_none hget hfresh hnone
  have hlt := hsess.done_lt (List.mem_of_getElem? hget) hw.counted
  obtain ⟨hwork, heq⟩ := @cleanTimeout_worked P .all conf env ctx _ _ hw (.inl trivial) hu
    (.inl trivial)
  have hon : WorksOn conf a (.cleanTimeout env) ctx.noTalk (.expire env)
      (expireTalk conf env a.session c.talk).2 := {
    target := by rw [target, hpc]; rfl
    own := fun i => by simp only [ownEvents, hpc, Pc.cleaning, Option.some.injEq, eq_comm]
    left := by
      simp only [next, hpc, hget, heq, endSession_session]
      exact Session.Inv.get_setTalk hget hwork.talks
        (hwork.noTalk.trans (hsess.index _ _ hget)) }
  obtain ⟨hsim, htalk⟩ := expireTalk_sim conf env c.talk (h.sim hsess hc hfresh) hlt
    (by simp [Solo.session])
  have hfree : SimResult (Shows.Near env c.talk) a.session c.session
      (freeEventCtx (expireTalk conf env a.session c.talk).1 ctx,
        (expireTalk conf env a.session c.talk).2) (expireTalk conf env c.session c.talk) :=
    ⟨hsim.congr rfl rfl rfl rfl, htalk⟩
  have hnotin : ctx.noTalk ∉ timeouts.map EventCtx.noTalk := by
    have hnodup := hsess.pending.1
    rw [hpc] at hnodup
    exact (List.nodup_cons.mp hnodup).1
  refine ⟨?_, hon.admits h.talks hc ?_⟩
  · rw [hon.solosNext h.talks hc]
    simp only [next, hpc, hget, heq, endSession_session, endSession_pc]
    refine h.work hsess hc hfresh hfree hwork ?_ fun m hm => ?_
    · rw [Pc.place_cleanRest]
      exact if_neg hnotin
    · rw [Pc.place_cleanRest, hpc]
      simp [Pc.place, hm]
  · refine (h.place c (List.mem_of_getElem? hc)).trans (Pc.place_of_mem_pending ?_)
    rw [hpc, hsess.index _ _ hget]
    exact List.mem_cons_self

def removeIn (fds : List ℤ) (c : Solo P) : Solo P :=
  if c.talk.fd ∈ fds then { c with place := .expiring, slot := none } else c

theorem removeIn_talk (fds : List ℤ) (c : Solo P) :
    (removeIn fds c).talk = c.talk ∧ (removeIn fds c).log = c.log := by
  unfold removeIn
  split_ifs <;> exact ⟨rfl, rfl⟩

theorem eventsOf_removeTimeouts (h : a.session.Shows a.pc cs) (hi : a.Inv .all talks)
    {fds : List ℤ} (hl : Enabled a (.removeTimeouts fds)) {i : ℕ} {c : Solo P}
    (hc : cs[i]? = some c) :
    a.eventsOf conf (.removeTimeouts fds) i = if c.talk.fd ∈ fds then [.remove] else [] := by
  obtain ⟨-, -, hnodup, htimer⟩ := hl
  have hget := h.get hc
  have hmem := mem_pending_removeTimeouts hi.session hnodup htimer (List.mem_of_getElem? hget)
  rw [pending_removeTimeouts _ hnodup, hi.session.index i _ hget, List.mem_filterMap] at hmem
  have hshared : a.sharedWrite conf (.removeTimeouts fds) i = none := rfl
  rw [eventsOf, hshared]
  simp only [ownEvents, List.mem_map, hmem, Option.toList_none, List.map_nil, List.append_nil]

theorem solosNext_removeTimeouts (h : a.session.Shows a.pc cs) (hi : a.Inv .all talks)
    {fds : List ℤ} (hl : Enabled a (.removeTimeouts fds)) :
    solosNext conf a (.removeTimeouts fds) cs = cs.map (removeIn fds) := by
  apply List.ext_getElem?
  intro i
  rw [solosNext, List.getElem?_mapIdx, List.getElem?_map]
  cases hc : cs[i]? with
  | none => rfl
  | some c =>
    simp only [Option.map_some, eventsOf_removeTimeouts h hi hl hc, removeIn]
    split_ifs <;> rfl

theorem shows_removeTimeouts (h : a.session.Shows a.pc cs) (hi : a.Inv .all talks)
    {fds : List ℤ} (hl : Enabled a (.removeTimeouts fds)) :
    (next conf a (.removeTimeouts fds)).session.Shows (next conf a (.removeTimeouts fds)).pc
        (solosNext conf a (.removeTimeouts fds) cs) ∧
      ∀ i d, cs[i]? = some d →
        (Solo.machine P conf).Admits d (a.eventsOf conf (.removeTimeouts fds) i) := by
  have hflat : ∀ {β : Type} (f : Log → List β),
      (cs.map (removeIn fds)).flatMap (fun c => f c.log) = cs.flatMap fun c => f c.log := by
    intro β f
    rw [List.flatMap_map]
    simp only [(removeIn_talk fds _).2]
  obtain ⟨hpc, -, hnodup, htimer⟩ := id hl
  have htalks : (cs.map (removeIn fds)).map Solo.talk = cs.map Solo.talk := by
    rw [List.map_map]
    exact List.map_congr_left fun c _ => (removeIn_talk fds c).1
  have hmem : ∀ c ∈ cs, c.talk ∈ a.session.talks := fun c hc => h.talks ▸ List.mem_map_of_mem hc
  refine ⟨?_, fun i c hc => ?_⟩
  · rw [solosNext_removeTimeouts h hi hl]
    refine ⟨h.talks.trans htalks.symm, fun x hx => ?_, fun x hx => ?_, ?_, ?_, ?_, ?_⟩
    · obtain ⟨c, hc, rfl⟩ := List.mem_map.mp hx
      rw [(removeIn_talk fds c).1]
      simp only [next, removeTimeouts_snd, removeIn]
      split_ifs
      · rfl
      · exact h.slot c hc
    · obtain ⟨c, hc, rfl⟩ := List.mem_map.mp hx
      have hiff := mem_pending_removeTimeouts hi.session hnodup htimer (hmem c hc)
      rw [(removeIn_talk fds c).1]
      simp only [next, removeIn]
      split_ifs with hfd
      · exact (Pc.place_of_mem_pending (hiff.mpr hfd)).symm
      · rw [h.place c hc, hpc]
        exact (if_neg (mt hiff.mp hfd)).symm
    · rw [hflat Log.reports]
      exact h.reports
    · rw [hflat Log.closed]
      exact h.closed
    · rw [hflat Log.bugs]
      exact h.bugs
    · rw [List.any_map]
      refine h.failed.trans ?_
      congr 1
      funext c
      simp only [Function.comp_apply, (removeIn_talk fds c).2]
  · rw [eventsOf_removeTimeouts h hi hl hc]
    split_ifs with hfd
    · have hc' := List.mem_of_getElem? hc
      refine ⟨⟨?_, ?_⟩, trivial⟩
      · rw [h.place c hc', hpc]
        rfl
      · have htimer' := htimer c.talk.fd hfd
        simp only [Solo.HasTimer, h.slot c hc', Option.bind_map]
        exact htimer'
    · trivial

theorem shows_next {l : Label} (h : a.session.Shows a.pc cs) (hi : a.Inv .all talks)
    (hl : Enabled a l) :
    (next conf a l).session.Shows (next conf a l).pc (solosNext conf a l cs) ∧
      ∀ i d, cs[i]? = some d → (Solo.machine P conf).Admits d (a.eventsOf conf l i) := by
  cases l with
  | reset env => exact shows_reset h hi hl
  | ready fd event env => exact shows_ready h hi hl
  | removeTimeouts fds => exact shows_removeTimeouts h hi hl
  | cleanTimeout env => exact shows_cleanTimeout h hi hl

/-- Every run of the slave is a run of each of its talks. -/
theorem shows_exec {ls : List Label} (h : a.session.Shows a.pc cs) (hi : a.Inv .all talks)
    (hrun : (machine P conf).Admits a ls) :
    ((machine P conf).exec a ls).session.Shows ((machine P conf).exec a ls).pc
        (cs.mapIdx fun i c => (Solo.machine P conf).exec c (a.trace conf ls i)) ∧
      ∀ i c, cs[i]? = some c → (Solo.machine P conf).Admits c (a.trace conf ls i) := by
  induction ls generalizing a cs with
  | nil =>
    refine ⟨?_, fun _ _ _ => trivial⟩
    have hid : (cs.mapIdx fun i c => (Solo.machine P conf).exec c (a.trace conf [] i)) = cs := by
      simp [trace, Machine.exec, List.mapIdx_eq_zipIdx_map]
    rw [hid]
    exact h
  | cons l ls ih =>
    obtain ⟨hstep, hadm⟩ : (next conf a l).session.Shows _ (solosNext conf a l cs) ∧ _ :=
      shows_next h hi hrun.1
    obtain ⟨hexec, hadm'⟩ := ih hstep (inv_next hi hrun.1 (tolerated_all conf a l)) hrun.2
    refine ⟨?_, fun i c hc => ?_⟩
    · have hcomp : (cs.mapIdx fun i c => (Solo.machine P conf).exec c (a.trace conf (l :: ls) i)) =
          (solosNext conf a l cs).mapIdx fun i c =>
            (Solo.machine P conf).exec c ((next conf a l).trace conf ls i) := by
        rw [solosNext, List.mapIdx_mapIdx]
        simp only [trace, Machine.exec_append]
        rfl
      rw [hcomp]
      exact hexec
    · rw [trace, Machine.admits_append]
      refine ⟨hadm i c hc, hadm' i _ ?_⟩
      rw [solosNext, List.getElem?_mapIdx, hc]
      rfl

theorem shows_start (ctxs : EventCtxPool) (hb : Built talks) :
    (start ctxs talks).session.Shows (start ctxs talks).pc (talks.map Solo.start) := by
  have hnil : ∀ {β : Type} (f : Log → List β), f .empty = [] →
      (talks.map (Solo.start (P := P))).flatMap (fun c => f c.log) = [] := by
    intro β f hf
    rw [List.flatMap_map]
    simp [Solo.start, hf]
  have hinv := inv_start ctxs hb (Built.startable hb) (.inl trivial)
  refine ⟨?_, ?_, ?_, ?_, ?_, ?_, ?_⟩
  · rw [start_talks, List.map_map]
    exact (List.map_id talks).symm
  · intro x hx
    obtain ⟨t, -, rfl⟩ := List.mem_map.mp hx
    simp [Solo.start, start, EventsDriver.empty]
  · intro x hx
    obtain ⟨t, ht, rfl⟩ := List.mem_map.mp hx
    have hlen : 0 < talks.length := List.length_pos_of_mem ht
    simp [start, endReset, hlen, Solo.start, Pc.place]
  · rw [hnil Log.reports rfl]
    simp [start]
  · rw [hnil Log.closed rfl]
    simp [start]
  · rw [hnil Log.bugs rfl]
    simp [start]
  · simp [start, Solo.start, Log.empty]

def solos (conf : ConfNormal) (ctxs : EventCtxPool) (talks : List (Talk P)) (ls : List Label) :
    List (Solo P) :=
  talks.mapIdx fun i t =>
    (Solo.machine P conf).exec (.start t) ((start ctxs talks).trace conf ls i)

theorem shows_solos (conf : ConfNormal) (ctxs : EventCtxPool) (hb : Built talks)
    {ls : List Label} (hrun : (machine P conf).Admits (start ctxs talks) ls) :
    ((machine P conf).exec (start ctxs talks) ls).session.Shows
        ((machine P conf).exec (start ctxs talks) ls).pc (solos conf ctxs talks ls) ∧
      ∀ i t, talks[i]? = some t →
        (Solo.machine P conf).Admits (.start t) ((start ctxs talks).trace conf ls i) := by
  obtain ⟨hshows, hadm⟩ := shows_exec (shows_start ctxs hb)
    (inv_start ctxs hb (Built.startable hb) (.inl trivial)) hrun
  refine ⟨?_, fun i t ht => hadm i (.start t) (by simp [ht])⟩
  have hmap : ((talks.map Solo.start).mapIdx fun i c =>
      (Solo.machine P conf).exec c ((start ctxs talks).trace conf ls i)) =
      solos conf ctxs talks ls := by
    apply List.ext_getElem?
    intro i
    rw [solos, List.getElem?_mapIdx, List.getElem?_mapIdx, List.getElem?_map, Option.map_map]
    rfl
  rw [← hmap]
  exact hshows

end AgentSlave

end Magneto
