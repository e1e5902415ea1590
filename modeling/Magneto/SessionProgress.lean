import Magneto.SessionRun

/-!
# A session that is driven can be finished

Without orphans and with sound time limits, every talk that is not counted has
an event with a timer or is still to be handled by the running loop. So the
timers alone bring every session to its reply: an attempt that runs out of time
and finds no new connection is counted.
-/

namespace Magneto.AgentSlave

variable {P : Protocols} {conf : ConfNormal} {talks : List (Talk P)} {a : AgentSlave P}

def driven : Tolerance := ⟨True, False, False, True⟩

def OneEvent (d : EventsDriver) (t : Talk P) : Prop :=
  ∃ fd slot, d fd = some slot ∧ slot.ctx.noTalk = t.noTalk ∧ slot.expireTimeMs.isSome ∧
    ∀ fd' slot', d fd' = some slot' → slot'.ctx.noTalk = t.noTalk → fd' = fd

theorem oneEvent_of_started {s : Session P} {pc : Pc} (h : s.Inv driven pc) {t : Talk P}
    (ht : t ∈ s.talks) (hc : t.counted = false) (hp : pc.place t.noTalk = .started) :
    OneEvent s.driver t := by
  have hat := h.place t ht
  rw [hp] at hat
  rcases hat with ⟨-, slot, hd, hn, htm⟩ | ⟨-, hset⟩ | ⟨hA, -⟩
  · refine ⟨t.fd, slot, hd, hn, htm.resolve_left id, fun fd' slot' hd' hn' => ?_⟩
    obtain ⟨u, hu, hufd, -⟩ := h.talk_of_slot hd'
    rw [hn', h.lookup ht] at hu
    rw [← hufd, Option.some.inj hu]
  · simp [hset.counted] at hc
  · exact hA.elim

def noFd : Env := ⟨0, [], ⟨0, false, .tmp 0, []⟩, false, false, [], []⟩

theorem noFd_fd : ¬ 0 < noFd.getFd.fd := by decide

theorem timed_noFd (hconf : conf.TimeoOk) : Session.Timed driven conf noFd :=
  .inr ⟨hconf, by decide⟩

theorem retryTalk_noFd (conf : ConfNormal) (s : Session P) (talk : Talk P) :
    (Session.retryTalk conf noFd s talk).1.numTalksDone = s.numTalksDone ∧
      (Session.retryTalk conf noFd s talk).1.talks = s.talks := by
  have hreset : ∀ (s : Session P) (t : Talk P), t.fd = 0 →
      Session.resetTalk conf noFd true s t =
        (s.fail, { t with
          remote := some noFd.getFd.remote
          peer := noFd.getFd.remote.deref noFd.getFd.tmpRemotes
          fd := -1
          error := .kBroken }) := by
    intro s t ht
    rw [Session.resetTalk, if_pos ht, if_neg noFd_fd]
  simp only [Session.retryTalk]
  rw [hreset _ _ rfl, if_neg (by simp)]
  split_ifs <;> exact ⟨rfl, rfl⟩

theorem finishTalk_noFd (conf : ConfNormal) (s : Session P) (talk : Talk P) :
    (Session.finishTalk conf noFd false s talk).1.numTalksDone = s.numTalksDone + 1 ∧
      (Session.finishTalk conf noFd false s talk).1.talks = s.talks := by
  simp only [Session.finishTalk, Bool.false_eq_true, ↓reduceIte]
  generalize hs : (if s.talks.length < s.numTalksDone + 1 then
    Session.bug { s with numTalksDone := s.numTalksDone + 1 } .numTalksDone
    else { s with numTalksDone := s.numTalksDone + 1 }) = s'
  have hs' : s'.numTalksDone = s.numTalksDone + 1 ∧ s'.talks = s.talks := by
    rw [← hs]
    split_ifs <;> exact ⟨rfl, rfl⟩
  obtain ⟨reports, failRemotes, hrep⟩ :=
    Session.reportStatus_eq noFd false s' { talk with counted := true }
  rw [hrep]
  split_ifs
  · obtain ⟨hd, ht⟩ := retryTalk_noFd conf { s' with reports := reports }
      { talk with counted := true, failRemotes := failRemotes }
    exact ⟨hd.trans hs'.1, ht.trans hs'.2⟩
  · exact hs'

def CanFinish (conf : ConfNormal) (a : AgentSlave P) : Prop :=
  ∃ ls : List Label, (∀ l ∈ ls, ∀ env ∈ l.env, ¬ 0 < env.getFd.fd) ∧
    (machine P conf).Admits a ls ∧ ((machine P conf).exec a ls).sentBack ≠ []

theorem CanFinish.step {l : Label} (hl : Enabled a l) (hno : ∀ env ∈ l.env, ¬ 0 < env.getFd.fd)
    (h : CanFinish conf (next conf a l)) : CanFinish conf a := by
  obtain ⟨ls, hls, hadm, hsent⟩ := h
  exact ⟨l :: ls, List.forall_mem_cons.mpr ⟨hno, hls⟩, ⟨hl, hadm⟩, hsent⟩

/-- What is left to do: the talks not counted, and those not reached by `Session::Reset`. -/
def work (a : AgentSlave P) : ℕ :=
  match a.pc with
  | .reset i => 3 * a.session.talks.length + 2 - i
  | .poll => 2 * (a.session.talks.length - a.session.numTalksDone) + 1
  | .clean _ => 2 * (a.session.talks.length - a.session.numTalksDone)

theorem fresh_noFd (s : Session P) (i : ℕ) : Fresh s i noFd := fun h => absurd h noFd_fd

theorem work_reset (hconf : conf.TimeoOk) (h : a.Inv driven talks) {i : ℕ} (hpc : a.pc = .reset i) :
    Enabled a (.reset noFd) ∧ work (next conf a (.reset noFd)) < work a := by
  have hi := h.loop i hpc
  have hl : Enabled a (.reset noFd) := by
    simp only [Enabled, hpc, Pc.resetting, FreshFor]
    exact fresh_noFd _ _
  refine ⟨hl, ?_⟩
  have hstep := step_reset h hl (timed_noFd hconf)
  generalize next conf a (.reset noFd) = a' at hstep ⊢
  cases hstep with
  | reset hpc' hget hc hfresh hw hspares =>
    rename_i j t u s'
    obtain rfl : i = j := by simpa [hpc] using hpc'
    have hlen : (s'.setTalk u).talks.length = a.session.talks.length := by
      simp [Session.setTalk, hw.talks, unregister]
    unfold endReset
    dsimp only
    split_ifs <;> simp only [work, hpc, sendBackMsg, hlen] at * <;> omega

theorem work_removeTimeouts (conf : ConfNormal) (h : a.Inv driven talks) (hpc : a.pc = .poll)
    (hs : a.sentBack = []) :
    ∃ fds, Enabled a (.removeTimeouts fds) ∧ work (next conf a (.removeTimeouts fds)) < work a := by
  have hlt : a.session.numTalksDone < a.session.talks.length := by
    rcases h.replied with ⟨-, hlt⟩ | ⟨e, hs', -⟩
    · exact hlt (by rw [hpc]; rfl)
    · simp [hs] at hs'
  obtain ⟨t, ht, hc⟩ : ∃ t ∈ a.session.talks, t.counted = false := by
    by_contra hall
    rw [h.session.done] at hlt
    refine hlt.ne (List.countP_eq_length.mpr fun t ht => ?_)
    by_contra hc
    exact hall ⟨t, ht, by simpa using hc⟩
  obtain ⟨fd, slot, hd, -, htm, -⟩ := oneEvent_of_started h.session ht hc (by rw [hpc]; rfl)
  refine ⟨[fd], ⟨hpc, by simp, by simp, ?_⟩, ?_⟩
  · intro fd' hfd
    obtain rfl : fd' = fd := by simpa using hfd
    simpa [HasTimer, hd] using htm
  · simp [work, next, hpc]

theorem work_cleanTimeout (hconf : conf.TimeoOk) (h : a.Inv driven talks) {timeouts : List EventCtx}
    (hpc : a.pc = .clean timeouts) :
    Enabled a (.cleanTimeout noFd) ∧ work (next conf a (.cleanTimeout noFd)) < work a := by
  obtain ⟨ctx, rest, rfl⟩ := List.exists_cons_of_ne_nil
    (show timeouts ≠ [] from fun he => h.busy (he ▸ hpc))
  have hl : Enabled a (.cleanTimeout noFd) := by
    simp only [Enabled, hpc, Pc.cleaning, FreshFor]
    exact fresh_noFd _ _
  refine ⟨hl, ?_⟩
  have hle := (inv_next h hl ⟨timed_noFd hconf, .inl trivial⟩).session.done_le
  have hctx : ctx.noTalk ∈ a.pc.pending := by
    rw [hpc]
    exact List.mem_cons_self
  obtain ⟨t, hget⟩ : ∃ t, a.session.talks[ctx.noTalk]? = some t :=
    ⟨_, List.getElem?_eq_getElem (h.session.pending.2 _ hctx)⟩
  obtain ⟨hdone, htalks⟩ := finishTalk_noFd conf (a.session.close t.fd) { t with fd := -1 }
  have hnext : (next conf a (.cleanTimeout noFd)).session.numTalksDone =
        a.session.numTalksDone + 1 ∧
      (next conf a (.cleanTimeout noFd)).session.talks.length = a.session.talks.length := by
    simp only [next, hpc, hget, endSession_session, cleanTimeout, freeEventCtx, Session.setTalk,
      List.length_set, List.length_map, htalks]
    exact ⟨hdone, rfl⟩
  have hpc' : (next conf a (.cleanTimeout noFd)).pc = .cleanRest rest := by
    simp only [next, hpc, hget, endSession]
    split_ifs <;> rfl
  rw [hnext.1, hnext.2] at hle
  unfold work
  rw [hnext.1, hnext.2, hpc', hpc, Pc.cleanRest]
  split_ifs <;> dsimp only <;> omega

/-- Timers alone bring every driven session to its reply. -/
theorem canFinish (hconf : conf.TimeoOk) (h : a.Inv driven talks) : CanFinish conf a := by
  induction hn : work a using Nat.strong_induction_on generalizing a with
  | _ n ih =>
    subst hn
    by_cases hs : a.sentBack = []
    · have hstep : ∃ l, Enabled a l ∧ Tolerated driven conf a l ∧
          (∀ env ∈ l.env, ¬ 0 < env.getFd.fd) ∧ work (next conf a l) < work a := by
        have hno : ∀ env ∈ some noFd, ¬ 0 < env.getFd.fd := by
          intro env henv
          obtain rfl : noFd = env := by simpa using henv
          exact noFd_fd
        cases hpc : a.pc with
        | reset i =>
          obtain ⟨hl, hlt⟩ := work_reset hconf h hpc
          exact ⟨.reset noFd, hl, timed_noFd hconf, hno, hlt⟩
        | poll =>
          obtain ⟨fds, hl, hlt⟩ := work_removeTimeouts conf h hpc hs
          exact ⟨.removeTimeouts fds, hl, trivial, by simp [Label.env], hlt⟩
        | clean timeouts =>
          obtain ⟨hl, hlt⟩ := work_cleanTimeout hconf h hpc
          exact ⟨.cleanTimeout noFd, hl, ⟨timed_noFd hconf, .inl trivial⟩, hno, hlt⟩
      obtain ⟨l, hl, ht, hno, hlt⟩ := hstep
      exact .step hl hno (ih _ hlt (inv_next h hl ht) rfl)
    · exact ⟨[], by simp, trivial, hs⟩

end Magneto.AgentSlave
