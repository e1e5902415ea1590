import Magneto.TalkStep
import Magneto.SessionOutcome
import Mathlib.Data.List.Induction

/-!
# The order of events

Two runs of the slave in which every talk of a session sees the same events end
with the same talks, and answer the session with the same error code. The talks
agree because a run is a run of each talk on its own. The code is computed at
three places; which of them answers depends on the order of events, but the code
is a function of what the talks have seen.
-/

namespace Magneto

variable {P : Protocols}

namespace AgentSlave

variable {A : Tolerance} {talks : List (Talk P)} {conf : ConfNormal} {a : AgentSlave P}

def Label.isReset : Label → Bool
  | .reset _ => true
  | _ => false

theorem Inv.replied_iff (h : a.Inv A talks) :
    a.sentBack ≠ [] ↔ ∀ t ∈ a.session.talks, t.counted = true := by
  have hdone : a.session.numTalksDone = a.session.talks.length ↔
      ∀ t ∈ a.session.talks, t.counted = true := by
    rw [h.session.done, List.countP_eq_length]
  rcases h.replied with ⟨hs, hlt⟩ | ⟨e, hs, -, hall, -⟩
  · refine ⟨fun hne => absurd hs hne, fun hall => ?_⟩
    cases hpc : a.pc with
    | reset i =>
      -- the talk the loop is at has not been counted
      have hget := List.getElem?_eq_getElem (h.loop i hpc)
      have hat := h.session.place _ (List.mem_of_getElem? hget)
      have hplace : (Pc.reset i).place i = .waiting := if_pos le_rfl
      rw [hpc, h.session.index i _ hget, hplace] at hat
      have := hall _ (List.mem_of_getElem? hget)
      rw [hat.1.counted] at this
      cases this
    | poll =>
      have := hlt (by rw [hpc]; rfl)
      have := hdone.mpr hall
      omega
    | clean timeouts =>
      have := hlt (by rw [hpc]; rfl)
      have := hdone.mpr hall
      omega
  · exact ⟨fun _ => hdone.mp hall, fun _ => by simp [hs]⟩

theorem retryTalk_failure (conf : ConfNormal) (env : Env) (s : Session P) (talk : Talk P)
    (hc : (Session.retryTalk conf env s talk).2.counted = true) :
    (Session.retryTalk conf env s talk).1.hasFailure = true := by
  simp only [Session.retryTalk] at hc ⊢
  generalize Session.resetTalk conf env true _ _ = r at hc ⊢
  by_cases he : r.2.error = .kOk
  · simp [he] at hc
  · simp [he, Session.fail]

theorem finishTalk_failure (conf : ConfNormal) (env : Env) (s : Session P) (talk : Talk P)
    (hc : (Session.finishTalk conf env false s talk).2.1.counted = true) :
    (Session.finishTalk conf env false s talk).1.hasFailure = true := by
  simp only [Session.finishTalk, Bool.false_eq_true, ↓reduceIte] at hc ⊢
  generalize Session.reportStatus env false _ _ = r at hc ⊢
  by_cases hr : r.2.retry = 0
  · simp [hr, Session.fail]
  · rw [if_pos hr] at hc ⊢
    exact retryTalk_failure conf env r.1 r.2 hc

theorem cleanTimeout_failure (h : a.Inv .all talks) {env : Env}
    (hl : Enabled a (.cleanTimeout env)) (hs : (next conf a (.cleanTimeout env)).sentBack ≠ []) :
    (next conf a (.cleanTimeout env)).session.hasFailure = true := by
  have hinv : (next conf a (.cleanTimeout env)).Inv .all talks :=
    inv_next h hl (tolerated_all conf a _)
  have hall := hinv.replied_iff.mp hs
  obtain ⟨ctx, timeouts, talk, hpc, hget, hw, hnone, hfresh⟩ := h.clean_target hl
  have hu := h.session.unregistered_of_none hget hfresh hnone
  have hn := h.session.index _ talk hget
  obtain ⟨hwork, -⟩ := @cleanTimeout_worked P .all conf env ctx a.session talk hw (.inl trivial)
    hu (.inl trivial)
  simp only [next, hpc, hget, endSession_session, cleanTimeout, freeEventCtx] at hall ⊢
  exact finishTalk_failure conf env _ _
    (hall _ ((h.session.mem_setTalk hget hwork.talks (hwork.noTalk.trans hn)).mpr (.inl rfl)))

theorem pc_resetting (hb : Built talks) {ctxs : EventCtxPool} {ls : List Label}
    (hrun : (machine P conf).Admits (start ctxs talks) ls)
    (hpc : ((machine P conf).exec (start ctxs talks) ls).pc.resetting.isSome) :
    ls.all Label.isReset = true := by
  induction ls using List.reverseRecOn with
  | nil => rfl
  | append_singleton ls l ih =>
    obtain ⟨hls, hl, -⟩ := (machine P conf).admits_append.mp hrun
    have hstep := step_cases (inv_exec_all hb hls) hl (tolerated_all conf _ l)
    rw [Machine.exec_append] at hpc
    change (next conf _ l).pc.resetting.isSome at hpc
    generalize (machine P conf).exec (start ctxs talks) ls = a at *
    generalize next conf a l = a' at hstep hpc
    cases hstep with
    | reset ha =>
      rw [List.all_append, ih hls (by rw [ha]; rfl)]
      rfl
    | ready ha => simp [ha, Pc.resetting] at hpc
    | cleanTimeout ha => simp [Pc.resetting_cleanRest] at hpc
    | removeTimeouts fds => simp [Pc.resetting] at hpc

def replyError (allReset hasFailure : Bool) : ErrorNo :=
  if allReset then .kBroken else if hasFailure then .kPartial else .kOk

theorem mem_endSession {finish : Bool} {error : ErrorNo} {r : Reply P}
    (hr : r ∈ (endSession finish error a).sentBack) (hs : a.sentBack = []) : r.error = error := by
  unfold endSession at hr
  split_ifs at hr
  · obtain rfl : r = ⟨error, a.session⟩ := by simpa [sendBackMsg, hs] using hr
    rfl
  · simp [hs] at hr

theorem next_reply {l : Label} (h : a.Inv .all talks) (hl : Enabled a l) {r : Reply P}
    (hr : r ∈ (next conf a l).sentBack) :
    r.error = replyError l.isReset (next conf a l).session.hasFailure ∧
      (l.isReset = true → a.pc.resetting.isSome) := by
  have hfail : ∀ env, l = .cleanTimeout env → (next conf a l).session.hasFailure = true := by
    rintro env rfl
    exact cleanTimeout_failure h hl (List.ne_nil_of_mem hr)
  have hs := h.unsent_of_enabled hl
  have hstep := step_cases h hl (tolerated_all conf a l)
  generalize next conf a l = a' at *
  cases hstep with
  | reset hpc =>
    refine ⟨?_, fun _ => by rw [hpc]; rfl⟩
    simp only [endReset] at hr
    split_ifs at hr
    · simp [hs] at hr
    · obtain rfl := List.mem_singleton.mp (by simpa [sendBackMsg, hs] using hr)
      rfl
    · simp [hs] at hr
  | ready hpc =>
    refine ⟨(mem_endSession hr hs).trans ?_, by simp [Label.isReset]⟩
    rw [endSession_session]
    rfl
  | cleanTimeout hpc =>
    refine ⟨(mem_endSession hr hs).trans ?_, by simp [Label.isReset]⟩
    rw [hfail _ rfl]
    rfl
  | removeTimeouts fds => simp [hs] at hr

theorem replyError_eq (hb : Built talks) {ctxs : EventCtxPool} {ls : List Label}
    (hrun : (machine P conf).Admits (start ctxs talks) ls) {r : Reply P}
    (hr : r ∈ ((machine P conf).exec (start ctxs talks) ls).sentBack) :
    r.error = replyError (ls.all Label.isReset)
      ((machine P conf).exec (start ctxs talks) ls).session.hasFailure := by
  induction ls using List.reverseRecOn with
  | nil =>
    have hstart : r ∈ (start ctxs talks).sentBack := hr
    simp only [start, endReset] at hstart
    split_ifs at hstart with hlt hdone
    · cases hstart
    · obtain rfl := List.mem_singleton.mp hstart
      rfl
    · cases hstart
  | append_singleton ls l ih =>
    obtain ⟨hls, hl, -⟩ := (machine P conf).admits_append.mp hrun
    rw [Machine.exec_append] at hr ⊢
    obtain ⟨herr, hreset⟩ := next_reply (inv_exec_all hb hls) hl hr
    refine herr.trans ?_
    have hall : (ls ++ [l]).all Label.isReset = l.isReset := by
      rw [List.all_append]
      cases hl : l.isReset with
      | true => simp [pc_resetting hb hls (hreset hl), hl]
      | false => simp [hl]
    rw [hall]
    rfl

def TalkEvent.isReset {W : Type} : TalkEvent W → Bool
  | .reset _ => true
  | .share _ => true
  | _ => false

theorem eventsOf_all (l : Label) (i : ℕ) : (a.eventsOf conf l i).all TalkEvent.isReset =
    (a.ownEvents l i).all TalkEvent.isReset := by
  have hshare : ∀ o : Option (WriterObj P),
      (o.toList.map TalkEvent.share).all TalkEvent.isReset = true := by
    intro o
    cases o <;> rfl
  rw [eventsOf, List.all_append, hshare, Bool.and_true]

theorem eventsOf_isReset (h : a.Inv .all talks) {l : Label} (hl : Enabled a l) :
    l.isReset = true ↔
      ∀ i < a.session.talks.length, (a.eventsOf conf l i).all TalkEvent.isReset := by
  simp only [eventsOf_all]
  have hlt : ∀ {n : ℕ} {t : Talk P}, a.session.talks[n]? = some t → n < a.session.talks.length :=
    fun ht => (List.getElem?_eq_some_iff.mp ht).1
  cases l with
  | reset env =>
    refine ⟨fun _ i _ => ?_, fun _ => rfl⟩
    simp only [ownEvents]
    split_ifs <;> rfl
  | ready fd event env =>
    obtain ⟨slot, t, hd, hget, -⟩ := h.ready_target hl
    refine ⟨by simp [Label.isReset], fun hall => ?_⟩
    have := hall _ (hlt hget)
    simp [ownEvents, hd, TalkEvent.isReset] at this
  | removeTimeouts fds =>
    obtain ⟨hpc, hne, hnodup, htimer⟩ := hl
    obtain ⟨fd, hfd⟩ := List.exists_mem_of_ne_nil fds hne
    obtain ⟨t, ht, -, -, hslot⟩ := talk_of_timer h.session (htimer fd hfd)
    refine ⟨by simp [Label.isReset], fun hall => ?_⟩
    have := hall _ (hlt (h.session.lookup ht))
    have hmem : some t.noTalk ∈ fds.map fun fd => (a.session.driver fd).map (·.ctx.noTalk) :=
      List.mem_map.mpr ⟨fd, hfd, hslot⟩
    rw [ownEvents, if_pos hmem] at this
    cases this
  | cleanTimeout env =>
    obtain ⟨ctx, timeouts, t, hpc, hget, -⟩ := h.clean_target hl
    refine ⟨by simp [Label.isReset], fun hall => ?_⟩
    have := hall _ (hlt hget)
    simp [ownEvents, hpc, Pc.cleaning, TalkEvent.isReset] at this

theorem next_length {l : Label} (h : a.Inv .all talks) (hl : Enabled a l) :
    (next conf a l).session.talks.length = a.session.talks.length := by
  have hset : ∀ {env : Env} {s' : Session P} {t u : Talk P},
      Session.Worked .all env (unregister a.session t.fd) t s' u →
      (s'.setTalk u).talks.length = a.session.talks.length := by
    intro env s' t u hw
    rw [Session.setTalk, List.length_set, List.length_map, hw.talks]
    rfl
  have hstep := step_cases h hl (tolerated_all conf a l)
  generalize next conf a l = a' at hstep
  cases hstep with
  | reset hpc hget hc hfresh hw hspares => rw [endReset_session]; exact hset hw
  | ready hpc hget hc hbuf hfresh hw hspares => rw [endSession_session]; exact hset hw
  | cleanTimeout hpc hget hc hfresh hw hspares => rw [endSession_session]; exact hset hw
  | removeTimeouts fds => rfl

theorem trace_isReset (h : a.Inv .all talks) {ls : List Label}
    (hrun : (machine P conf).Admits a ls) :
    ls.all Label.isReset = true ↔
      ∀ i < a.session.talks.length, (a.trace conf ls i).all TalkEvent.isReset := by
  induction ls generalizing a with
  | nil => simp [trace]
  | cons l ls ih =>
    have hinv : (next conf a l).Inv .all talks := inv_next h hrun.1 (tolerated_all conf a l)
    rw [List.all_cons, Bool.and_eq_true, eventsOf_isReset h hrun.1, ih hinv hrun.2,
      next_length h hrun.1]
    simp only [trace, List.all_append, Bool.and_eq_true]
    exact ⟨fun hall i hi => ⟨hall.1 i hi, hall.2 i hi⟩,
      fun hall => ⟨fun i hi => (hall i hi).1, fun i hi => (hall i hi).2⟩⟩

/-- In two runs in which every talk sees the same events, whatever their order
across talks, the talks end the same and the session is answered with the same code. -/
theorem interleavings_agree (conf : ConfNormal) (ctxs : EventCtxPool) (hb : Built talks)
    {ls ls' : List Label} (hrun : (machine P conf).Admits (start ctxs talks) ls)
    (hrun' : (machine P conf).Admits (start ctxs talks) ls')
    (htrace : ∀ i < talks.length,
      (start ctxs talks).trace conf ls i = (start ctxs talks).trace conf ls' i) :
    let a := (machine P conf).exec (start ctxs talks) ls
    let a' := (machine P conf).exec (start ctxs talks) ls'
    a.session.talks = a'.session.talks ∧
      a.sentBack.map (fun r => (r.error, r.session.talks)) =
        a'.sentBack.map (fun r => (r.error, r.session.talks)) := by
  intro a a'
  have hsolos : solos conf ctxs talks ls = solos conf ctxs talks ls' := by
    apply List.ext_getElem?
    intro i
    simp only [solos, List.getElem?_mapIdx]
    cases ht : talks[i]? with
    | none => rfl
    | some t => rw [htrace i (List.getElem?_eq_some_iff.mp ht).1]
  obtain ⟨hshows, -⟩ := shows_solos conf ctxs hb hrun
  obtain ⟨hshows', -⟩ := shows_solos conf ctxs hb hrun'
  have htalks : a.session.talks = a'.session.talks := by
    rw [hshows.talks, hshows'.talks, hsolos]
  have hfailed : a.session.hasFailure = a'.session.hasFailure := by
    rw [hshows.failed, hshows'.failed, hsolos]
  have hstart := inv_start ctxs hb (Built.startable hb) (.inl trivial)
  have hreset : ls.all Label.isReset = ls'.all Label.isReset := by
    rw [Bool.eq_iff_iff, trace_isReset hstart hrun, trace_isReset hstart hrun', start_talks]
    exact forall_congr' fun i => forall_congr' fun hi => by rw [htrace i hi]
  have hinv : a.Inv .all talks := inv_exec_all hb hrun
  have hinv' : a'.Inv .all talks := inv_exec_all hb hrun'
  have hsent : a.sentBack ≠ [] ↔ a'.sentBack ≠ [] := by
    rw [hinv.replied_iff, hinv'.replied_iff, htalks]
  refine ⟨htalks, ?_⟩
  rcases hinv.replied with ⟨hs, -⟩ | ⟨e, hs, -⟩ <;>
    rcases hinv'.replied with ⟨hs', -⟩ | ⟨e', hs', -⟩
  · rw [hs, hs']
  · exact absurd hs (hsent.mpr (by simp [hs']))
  · exact absurd hs' (hsent.mp (by simp [hs]))
  · have he : e = _ := replyError_eq hb hrun (hs ▸ List.mem_singleton_self _)
    have he' : e' = _ := replyError_eq hb hrun' (hs' ▸ List.mem_singleton_self _)
    rw [hs, hs', List.map_singleton, List.map_singleton, htalks, he, he', hreset, hfailed]

def oneArgs (i : ℕ) : Talk.Args Rapid.protocols :=
  ⟨i, .kWriteAndRead, some (Rapid.oneService 0), .kRapid, some Rapid.oneRequest, 100, 0, none,
    none⟩

def twoTalks : List (Talk Rapid.protocols) :=
  let r := Talk.assign Rapid.emptyPools 0 (oneArgs 0)
  [r.1, (Talk.assign r.2 0 (oneArgs 1)).1]

theorem built_twoTalks : Built twoTalks where
  index := by
    intro i t h
    match i with
    | 0 => obtain rfl := Option.some.inj h; rfl
    | 1 => obtain rfl := Option.some.inj h; rfl
    | i + 2 => simp [twoTalks] at h
  assigned := by
    intro i t h
    match i with
    | 0 => obtain rfl := Option.some.inj h; exact ⟨Rapid.emptyPools, 0, oneArgs 0, rfl⟩
    | 1 => obtain rfl := Option.some.inj h; exact ⟨_, _, oneArgs 1, rfl⟩
    | i + 2 => simp [twoTalks] at h
  distinct := by decide

/-- The second talk expires after the first has got its reply, or before. -/
def expiresLast : List Label :=
  [.reset (Rapid.connected 5 []), .reset (Rapid.connected 6 []),
    .ready 5 .kOut (Rapid.connected 5 []),
    .ready 5 .kIn (Rapid.connected 5 [.data (Rapid.frame [9])]),
    .removeTimeouts [6], .cleanTimeout (Rapid.connected 6 [])]

def expiresFirst : List Label :=
  [.reset (Rapid.connected 5 []), .reset (Rapid.connected 6 []),
    .removeTimeouts [6], .cleanTimeout (Rapid.connected 6 []),
    .ready 5 .kOut (Rapid.connected 5 []),
    .ready 5 .kIn (Rapid.connected 5 [.data (Rapid.frame [9])])]

theorem interleavings_agree_expires :
    let a := (machine Rapid.protocols ⟨50, 50, 50⟩).exec (start .empty twoTalks) expiresLast
    let a' := (machine Rapid.protocols ⟨50, 50, 50⟩).exec (start .empty twoTalks) expiresFirst
    a.sentBack.map (·.error) = [.kPartial] ∧ a.session.talks = a'.session.talks :=
  ⟨by decide, (interleavings_agree ⟨50, 50, 50⟩ .empty built_twoTalks
    (show (machine Rapid.protocols _).Admits _ expiresLast by decide)
    (show (machine Rapid.protocols _).Admits _ expiresFirst by decide) (by decide)).1⟩

end AgentSlave

end Magneto
