import Magneto.EventsDriverRun
import Magneto.SessionOutcome
import Magneto.SlaveObjects

/-!
# An agent uses its driver as the stored driver expects

The work of an agent slave on a session changes the driver through the calls of
the source: it adds a descriptor only when the driver does not know it, and
modifies a registration with the context it was made with. The stored driver
therefore follows every run of the agent, and what its `RemoveTimeouts` hands out
is a step of the agent.
-/

namespace Magneto

open EventsDriver (Call Slot Direction)

namespace EventsDriver

/-- The driver `a'` comes from `a` by legal calls. -/
def Driven (a a' : EventsDriver) : Prop :=
  ∃ calls, Call.machine.Admits a calls ∧ Call.machine.exec a calls = a'

namespace Driven

variable {a b c : EventsDriver} {fd : ℤ}

theorem refl (a : EventsDriver) : Driven a a := ⟨[], trivial, rfl⟩

theorem trans (h : Driven a b) (h' : Driven b c) : Driven a c := by
  obtain ⟨calls, hc, rfl⟩ := h
  obtain ⟨calls', hc', rfl⟩ := h'
  exact ⟨calls ++ calls', Call.machine.admits_append.mpr ⟨hc, hc'⟩, Call.machine.exec_append a _ _⟩

theorem call (x : Call) (hx : x.Legal a) : Driven a (x.onMap a) := ⟨[x], ⟨hx, trivial⟩, rfl⟩

theorem del (hfd : 0 ≤ fd) : Driven a (a.regEventDel fd) := by
  lift fd to ℕ using hfd
  exact call (.del fd) trivial

theorem add (hfd : 0 ≤ fd) (hfree : a fd = none) (ok : Bool) (direction : Direction)
    (ctx : EventCtx) (timeoMs now : ℤ) :
    Driven a (a.regEventAdd ok fd direction ctx timeoMs now).2 := by
  lift fd to ℕ using hfd
  have h := call (.add fd direction ctx timeoMs now (!ok)) (Option.isNone_iff_eq_none.mpr hfree)
  rwa [Call.onMap, Bool.not_not] at h

theorem mod (hfd : 0 ≤ fd) {slot : Slot} (hslot : a fd = some slot) {ctx : EventCtx}
    (hctx : slot.ctx.id = ctx.id) (ok : Bool) (direction : Direction) (timeoMs now : ℤ) :
    Driven a (a.regEventMod ok fd direction ctx timeoMs now).2 := by
  lift fd to ℕ using hfd
  have hlegal : (Call.mod fd direction ctx timeoMs now (!ok)).Legal a := by
    change (a fd).all _ = true
    rw [hslot]
    simpa using hctx
  have h := call _ hlegal
  rwa [Call.onMap, hslot, Option.isSome_some, Bool.true_and, Bool.not_not] at h

theorem removeTimeouts {fds : List ℤ} (h : ∀ fd ∈ fds, 0 ≤ fd) (a : EventsDriver) :
    Driven a (AgentSlave.removeTimeouts a fds).2 := by
  induction fds generalizing a with
  | nil => exact refl a
  | cons fd fds ih =>
    exact (del (h fd List.mem_cons_self)).trans
      (ih (fun fd' hfd => h fd' (List.mem_cons_of_mem _ hfd)) _)

end Driven

end EventsDriver

open EventsDriver (Driven)

variable {P : Protocols}

namespace Session

variable {conf : ConfNormal} {env : Env} {s : Session P} {talk : Talk P}

theorem resetTalk_driven (isRetry : Bool) (hu : Unregistered env s.driver talk) :
    Driven s.driver (resetTalk conf env isRetry s talk).1.driver := by
  have hcase := resetTalk_cases conf env isRetry s talk
  generalize resetTalk conf env isRetry s talk = r at hcase ⊢
  cases hcase with
  | refused tmp t u hc he => exact .del (hc.prepared he).pos.le
  | registered tmp t u hc he =>
    have hp := hc.prepared he
    exact .add hp.pos.le (hp.unregistered hu) true _ _ _ env.now
  | _ => exact .refl _

theorem resetOne_driven (hu : Unregistered env s.driver talk) :
    Driven s.driver (resetOne conf env s talk).1.driver := by
  unfold resetOne
  split_ifs
  · exact .refl _
  · dsimp only
    split_ifs
    · exact resetTalk_driven false hu
    · exact resetTalk_driven false hu

theorem retryTalk_driver (t : Talk P) : (retryTalk conf env s t).1.driver =
    (resetTalk conf env true (if 0 < t.fd then s.close t.fd else s) { t with
      retry := t.retry - 1, fd := 0, error := .kOk, attempt := .fresh,
      past := t.past ++ [t.attempt] }).1.driver := by
  simp only [retryTalk]
  generalize resetTalk conf env true _ _ = r
  split_ifs <;> rfl

theorem retryTalk_driven (t : Talk P) (hu : Unregistered env s.driver talk) :
    Driven s.driver (retryTalk conf env s t).1.driver := by
  have hclose : (if 0 < t.fd then s.close t.fd else s).driver = s.driver := by
    split_ifs <;> rfl
  rw [retryTalk_driver, ← hclose]
  refine resetTalk_driven true ?_
  rw [hclose]
  exact ⟨hu.nonpos, hu.nonpos 0 le_rfl, hu.new⟩

theorem reportStatus_driver (env : Env) (succ : Bool) (t : Talk P) :
    (reportStatus env succ s t).1.driver = s.driver := by
  unfold reportStatus
  split <;> rfl

theorem finishTalk_driven (talk : Talk P) (succ : Bool) (hu : Unregistered env s.driver talk) :
    Driven s.driver (finishTalk conf env succ s talk).1.driver := by
  simp only [finishTalk]
  generalize hr : reportStatus env succ _ _ = r
  have hdriver : r.1.driver = s.driver := by
    rw [← hr, reportStatus_driver]
    split_ifs <;> rfl
  split_ifs
  · exact hdriver ▸ .refl _
  · rw [← hdriver]
    exact retryTalk_driven r.2 (hdriver.symm ▸ hu)
  · change Driven s.driver r.1.driver
    exact hdriver ▸ .refl _

end Session

namespace AgentSlave

open Session (Unregistered)

variable {A : Tolerance} {conf : ConfNormal} {env : Env} {slot : Slot} {s : Session P}
  {talk : Talk P}

theorem errorHandle_driver (talk : Talk P) (error : ErrorNo) :
    (errorHandle s talk error).session.driver = s.driver.regEventDel talk.fd := by
  simp only [errorHandle]
  split_ifs <;> rfl

theorem errorHandle_driven (talk : Talk P) (hfd : 0 ≤ talk.fd) (error : ErrorNo) :
    Driven s.driver (errorHandle s talk error).session.driver := by
  rw [errorHandle_driver]
  exact .del hfd

theorem waitMore_driven (talk : Talk P) (timeleft : ℤ) (direction : Direction) (hfd : 0 ≤ talk.fd)
    (hslot : s.driver talk.fd = some slot) :
    Driven s.driver (waitMore env timeleft direction slot.ctx s talk).session.driver := by
  have hmod : Driven s.driver (s.driver.regEventMod env.modOk talk.fd direction
      (slot.ctx.checkTimeout env.now timeleft).2
      (slot.ctx.checkTimeout env.now timeleft).2.timeleftMs env.now).2 :=
    .mod hfd hslot (checkTimeout_id _ _ _).symm _ _ _ _
  simp only [waitMore]
  split_ifs
  · exact errorHandle_driven _ hfd _
  · exact hmod
  · exact hmod.trans (errorHandle_driven (s := { s with driver := _ }) _ hfd _)

theorem turnToRead_driven (talk : Talk P) (hfd : 0 ≤ talk.fd)
    (hslot : s.driver talk.fd = some slot) :
    Driven s.driver (turnToRead env slot.ctx s talk).session.driver := by
  simp only [turnToRead]
  split_ifs
  · exact errorHandle_driven _ hfd _
  · exact waitMore_driven (s := s.bug .endtime) { talk with status := .kRead } _ _ hfd
      hslot
  · exact waitMore_driven { talk with status := .kRead } _ _ hfd hslot

theorem handleSessionEvent_driven (env : Env) (event : EventsDriver.Event) (hfd : 0 ≤ talk.fd)
    (hslot : s.driver talk.fd = some slot) :
    Driven s.driver (handleSessionEvent env event slot.ctx s talk).session.driver := by
  unfold handleSessionEvent
  split_ifs
  · exact errorHandle_driven _ hfd _
  · split
    · exact waitMore_driven (connTalk talk) _ _ hfd hslot
    · unfold handleSessionEventRead
      split
      · exact .refl _
      · rename_i o _
        dsimp only
        split_ifs
        · exact errorHandle_driven (decodeTalk (readTalk talk o _) o _) hfd _
        · exact errorHandle_driven (decodeTalk (readTalk talk o _) o _) hfd _
        · exact waitMore_driven (readTalk talk o _) _ _ hfd hslot
        · exact errorHandle_driven (readTalk talk o _) hfd _
    · unfold handleSessionEventWrite
      split
      · exact .refl _
      · rename_i o _
        dsimp only
        split_ifs
        · exact turnToRead_driven (writeTalk talk o _) hfd hslot
        · exact errorHandle_driven (s := s.bug .category) (writeTalk talk o _) hfd _
        · exact errorHandle_driven (writeTalk talk o _) hfd _
        · exact waitMore_driven (writeTalk talk o _) _ _ hfd hslot
        · exact errorHandle_driven (writeTalk talk o _) hfd _
    · exact .refl _

theorem checkSession_driven (event : EventsDriver.Event) (hw : talk.Working A)
    (hslot : s.driver talk.fd = some slot) (hn : slot.ctx.noTalk = talk.noTalk)
    (ht : A.untimed ∨ slot.expireTimeMs.isSome)
    (hu : Unregistered env (s.driver.regEventDel talk.fd) talk) :
    Driven s.driver (checkSession conf env event slot.ctx s talk).1.driver := by
  have hdriven := handleSessionEvent_driven env event hw.fd.le hslot
  have hspec := handleSessionEvent_spec env event hw hslot hn ht
  simp only [checkSession]
  generalize handleSessionEvent env event slot.ctx s talk = h at hdriven hspec ⊢
  cases hspec.result with
  | more hm =>
    rw [if_pos hm]
    exact hdriven
  | finish hm hfd hd hf =>
    rw [if_neg (by simp [hm])]
    exact hdriven.trans (Session.finishTalk_driven (s := freeEventCtx h.session slot.ctx) _ _
      (unregistered_of_handled hu hd hfd))

theorem cleanTimeout_driven (ctx : EventCtx) (hu : Unregistered env s.driver talk) :
    Driven s.driver (cleanTimeout conf env ctx s talk).1.driver :=
  Session.finishTalk_driven (s := s.close talk.fd) { talk with fd := -1 } false
    ⟨hu.nonpos, hu.nonpos (-1) (by omega), hu.new⟩

variable {talks : List (Talk P)} {a : AgentSlave P}

theorem Inv.next_driven (h : a.Inv A talks) {l : Label} (hl : Enabled a l) :
    Driven a.session.driver (next conf a l).session.driver := by
  cases l with
  | reset env =>
    obtain ⟨i, talk, hpc, hget, -, hnone, hfresh⟩ := h.reset_target hl
    simp only [next, hpc, hget, endReset_session]
    exact Session.resetOne_driven (h.session.unregistered_of_none hget hfresh hnone)
  | ready fd event env =>
    obtain ⟨slot, talk, hd, hget, rfl, hw, hn, htm, hfresh⟩ := h.ready_target hl
    simp only [next, hd, hget, endSession_session]
    exact checkSession_driven event hw hd hn htm (h.session.unregistered hget hfresh)
  | removeTimeouts fds =>
    obtain ⟨-, -, -, htimer⟩ := hl
    refine .removeTimeouts (fun fd hfd => ?_) _
    obtain ⟨t, -, rfl, hw, -⟩ := talk_of_timer h.session (htimer fd hfd)
    exact hw.fd.le
  | cleanTimeout env =>
    obtain ⟨ctx, timeouts, talk, hpc, hget, -, hnone, hfresh⟩ := h.clean_target hl
    simp only [next, hpc, hget, endSession_session]
    exact cleanTimeout_driven ctx (h.session.unregistered_of_none hget hfresh hnone)

theorem exec_driven {ctxs : EventCtxPool} (hb : Built talks) {ls : List Label}
    (hrun : (machine P conf).Admits (start ctxs talks) ls) :
    Driven .empty ((machine P conf).exec (start ctxs talks) ls).session.driver := by
  have hstep : ∀ (a : AgentSlave P) (l : Label),
      a.Inv .all talks ∧ Driven .empty a.session.driver → Enabled a l →
        (next conf a l).Inv .all talks ∧ Driven .empty (next conf a l).session.driver :=
    fun a l h hl => ⟨inv_next h.1 hl (tolerated_all conf a l), h.2.trans (h.1.next_driven hl)⟩
  have hstart : Driven .empty (start ctxs talks : AgentSlave P).session.driver := by
    rw [start, endReset_session]
    exact .refl _
  exact ((machine P conf).invariant hstep
    ⟨inv_start ctxs hb (Built.startable hb) (.inl trivial), hstart⟩ hrun).2

end AgentSlave

end Magneto
