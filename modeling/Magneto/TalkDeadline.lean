import Magneto.TalkStep
import Magneto.SessionOutcome

/-!
# The deadline of a talk

The time left of an event is set when the talk is registered, cut or renewed by
the handlers, and set anew by a retry. With a clock that does not go back, the
event's time is up no later than the talk's own deadline at all these places, and
its timer expires when its time is up.
-/

namespace Magneto

variable {P : Protocols}

open EventsDriver (Slot Direction)

/-- The time of an event is up no later than `endtimeMs`, and its timer tells so. -/
structure EventsDriver.Slot.Within (slot : Slot) (endtimeMs : ℤ) : Prop where
  timeleft : TimeoOk slot.ctx.timeleftMs
  deadline : slot.ctx.lasttimeMs + slot.ctx.timeleftMs ≤ endtimeMs
  timer : slot.expireTimeMs = some (slot.ctx.lasttimeMs + slot.ctx.timeleftMs)

structure Talk.Timely (now : ℤ) (t : Talk P) (o : Option Slot) : Prop where
  timeo : t.TimeoOk
  within : ∀ slot ∈ o, slot.Within t.endtimeMs ∧ slot.ctx.lasttimeMs ≤ now

theorem Talk.Timely.of_none {t u : Talk P} {now : ℤ} (h : t.TimeoOk)
    (hr : u.remote = t.remote) : u.Timely now none :=
  ⟨fun r hu => h r (hr ▸ hu), by simp⟩

theorem Session.newSlot_within {conf : ConfNormal} {env : Env} {tmp : List Remote} {talk : Talk P}
    (id : ℕ) (hconf : conf.TimeoOk) (htmp : ∀ r ∈ tmp, r.TimeoOk) (ht : talk.TimeoOk)
    (hlate : env.now < talk.endtimeMs) :
    (newSlot conf env tmp id talk).Within talk.endtimeMs := by
  obtain ⟨hok, hexp⟩ := newSlot_expire id hconf htmp ht hlate
  refine ⟨hok, ?_, hexp⟩
  have hmin : min (talk.endtimeMs - env.now) (timeoMs conf tmp talk) ≤ talk.endtimeMs - env.now :=
    min_le_left _ _
  simp only [newSlot]
  omega

theorem Session.Opened.timely {conf : ConfNormal} {env : Env} {isRetry : Bool} {talk u : Talk P}
    {o : Option Slot} {δ : Log} (h : Opened conf env isRetry talk o δ u) (hconf : conf.TimeoOk)
    (ht : talk.TimeoOk) (henv : env.TimeoOk) :
    u.Timely env.now o ∧ .endtime ∉ δ.bugs := by
  have hprep : ∀ {tmp : List Remote} {t u : Talk P} {ok : Bool}, Connected env talk tmp t →
      Encoded isRetry t ok u → u.TimeoOk := fun hc he => (hc.prepared he).timeoOk ht henv
  cases h with
  | noFd =>
    refine ⟨⟨fun ref hr => ?_, by simp⟩, by simp⟩
    obtain rfl : env.getFd.remote = ref := Option.some.inj hr
    exact henv.remote
  | invalid => exact ⟨.of_none ht rfl, by simp⟩
  | encode tmp t u hc he => exact ⟨.of_none (hprep hc he) rfl, by simp⟩
  | late tmp t u hc he => exact ⟨.of_none (hprep hc he) rfl, by simp⟩
  | refused tmp t u hc he => exact ⟨.of_none (hprep hc he) rfl, by simp⟩
  | registered tmp t u hc he hlate =>
    refine ⟨⟨hprep hc he, fun slot hs => ?_⟩, by simp [Log.empty]⟩
    obtain rfl := Option.some.inj hs
    exact ⟨newSlot_within 0 hconf (hc.tmp_timeoOk henv) (hprep hc he) hlate, le_rfl⟩

theorem Session.Finished.timely {conf : ConfNormal} {env : Env} {succ : Bool} {talk u : Talk P}
    {o : Option Slot} {δ : Log} (h : Finished conf env talk succ o δ u) (hconf : conf.TimeoOk)
    (ht : talk.TimeoOk) (henv : env.TimeoOk) :
    u.Timely env.now o ∧ .endtime ∉ δ.bugs := by
  cases h with
  | succeeded => exact ⟨.of_none ht rfl, by simp⟩
  | failed => exact ⟨.of_none ht rfl, by simp⟩
  | again hr ho =>
    obtain ⟨⟨htimeo, hwithin⟩, hbugs⟩ := ho.timely hconf ht henv
    exact ⟨⟨htimeo, hwithin⟩, by simpa [Log.append] using hbugs⟩

namespace AgentSlave

variable {env : Env} {slot : Slot} {talk u : Talk P}

theorem inTime_endtime (hw : slot.Within talk.endtimeMs) (ht : slot.InTime env) :
    env.now < talk.endtimeMs := by
  have hd := hw.deadline
  unfold Slot.InTime at ht
  omega

theorem Fired.not_endtime {bugs : List Bug} (h : Fired env slot talk bugs)
    (hw : slot.Within talk.endtimeMs) : .endtime ∉ bugs := by
  rcases h with rfl | ⟨-, hend, ht⟩
  · simp
  · have := inTime_endtime hw ht
    omega

theorem limits_cases {timeleftMs : ℤ} (h : Limits env talk timeleftMs) (ht : talk.TimeoOk)
    (htmp : ∀ r ∈ env.tmpRemotes, r.TimeoOk) (hend : env.now < talk.endtimeMs) :
    timeleftMs = 0 ∨ TimeoOk timeleftMs ∧ timeleftMs ≤ talk.endtimeMs - env.now := by
  have helim : ∀ f : Remote → ℤ, (∀ r, r.TimeoOk → TimeoOk (f r)) →
      TimeoOk ((talk.remoteIn env.tmpRemotes).elim 0 f) := by
    intro f hf
    cases hr : talk.remoteIn env.tmpRemotes with
    | none => exact ⟨le_rfl, by norm_num [Option.elim]⟩
    | some r => exact hf r (ht.remoteIn htmp hr)
  rcases h with h | rfl | rfl
  · exact .inl h
  · exact .inr ⟨Session.timeoOk_min (by omega) (helim _ fun r hr => hr.rtimeo), min_le_left _ _⟩
  · exact .inr ⟨Session.timeoOk_min (by omega) (helim _ fun r hr => hr.wtimeo), min_le_left _ _⟩

/-- A renewed event. The limit 0 stands for what is left of the old one. -/
theorem renew_within {timeleftMs endtimeMs : ℤ} {direction : Direction}
    (hw : slot.Within endtimeMs) (ht : slot.InTime env) (hclock : slot.ctx.lasttimeMs ≤ env.now)
    (hl : timeleftMs = 0 ∨ TimeoOk timeleftMs ∧ timeleftMs ≤ endtimeMs - env.now) :
    (slot.renew env timeleftMs direction).Within endtimeMs ∧
      (slot.renew env timeleftMs direction).ctx.lasttimeMs ≤ env.now := by
  obtain ⟨⟨h0, h31⟩, hdeadline, -⟩ := hw
  unfold Slot.InTime at ht
  have hctx : ∃ left, (slot.ctx.checkTimeout env.now timeleftMs).2 =
      { slot.ctx with timeleftMs := left, lasttimeMs := env.now } ∧ TimeoOk left ∧
      left ≤ endtimeMs - env.now := by
    unfold EventCtx.checkTimeout
    simp only [show ¬ slot.ctx.timeleftMs ≤ env.now - slot.ctx.lasttimeMs by omega, ↓reduceIte]
    by_cases hz : timeleftMs = 0
    · exact ⟨_, by rw [if_neg (by simpa using hz)], ⟨by omega, by omega⟩, by omega⟩
    · exact ⟨timeleftMs, by rw [if_pos hz], hl.resolve_left hz⟩
  obtain ⟨left, hctx, hok, hle⟩ := hctx
  simp only [Slot.renew, hctx, Word.narrow_of_mem hok.1 hok.2, if_pos hok.1]
  exact ⟨⟨hok, by simp only [EventCtx.anon]; omega, rfl⟩, le_rfl⟩

theorem Served.timely {more : Bool} {o : Option Slot} {δ : Log}
    (h : Served env slot talk more o δ u) (ht : talk.TimeoOk)
    (htmp : ∀ r ∈ env.tmpRemotes, r.TimeoOk) (hw : slot.Within talk.endtimeMs)
    (hclock : slot.ctx.lasttimeMs ≤ env.now) : u.Timely env.now o ∧ .endtime ∉ δ.bugs := by
  cases h with
  | wait hu hl hin hd hb =>
    obtain ⟨_, _, _, _, rfl⟩ := hu
    refine ⟨⟨ht, fun slot' hs => ?_⟩, hb.not_endtime hw⟩
    obtain rfl := Option.some.inj hs
    exact renew_within hw hin hclock (limits_cases hl ht htmp (inTime_endtime hw hin))
  | finish hu =>
    obtain ⟨_, _, _, _, rfl⟩ := hu
    exact ⟨.of_none ht rfl, by simp [Log.empty]⟩
  | fail hu he hb =>
    obtain ⟨_, _, _, _, rfl⟩ := hu
    exact ⟨.of_none ht rfl, hb.not_endtime hw⟩

end AgentSlave

structure Solo.Timely (c : Solo P) (es : List (TalkEvent (WriterObj P))) : Prop where
  timeo : c.talk.TimeoOk
  within : ∀ slot ∈ c.slot, slot.Within c.talk.endtimeMs ∧
    ∀ env ∈ es.filterMap TalkEvent.env, slot.ctx.lasttimeMs ≤ env.now
  bugs : .endtime ∉ c.log.bugs
  clock : (es.filterMap TalkEvent.env).Pairwise fun env env' => env.now ≤ env'.now
  remotes : ∀ env ∈ es.filterMap TalkEvent.env, env.TimeoOk

namespace Solo

variable {conf : ConfNormal} {c c' : Solo P} {e : TalkEvent (WriterObj P)}
  {es : List (TalkEvent (WriterObj P))}

theorem Timely.at {env : Env} (h : c.Timely (e :: es)) (he : e.env = some env)
    (ht : c'.talk.Timely env.now c'.slot) (hb : .endtime ∉ c'.log.bugs) : c'.Timely es := by
  obtain ⟨-, -, -, hclock, hremotes⟩ := h
  rw [List.filterMap_cons_some he] at hclock hremotes
  obtain ⟨hnow, hclock⟩ := List.pairwise_cons.mp hclock
  exact {
    timeo := ht.timeo
    within := fun slot hs => ⟨(ht.within slot hs).1,
      fun env' he' => (ht.within slot hs).2.trans (hnow env' he')⟩
    bugs := hb
    clock := hclock
    remotes := fun env' he' => hremotes env' (List.mem_cons_of_mem env he') }

theorem Timely.remote {env : Env} (h : c.Timely (e :: es)) (he : e.env = some env) :
    env.TimeoOk := h.remotes env (by simp [he])

theorem Timely.slot {env : Env} {slot : Slot} (h : c.Timely (e :: es)) (he : e.env = some env)
    (hs : c.slot = some slot) : slot.Within c.talk.endtimeMs ∧ slot.ctx.lasttimeMs ≤ env.now :=
  ⟨(h.within slot hs).1, (h.within slot hs).2 env (by simp [he])⟩

theorem append_endtime {ε δ : Log} (hε : .endtime ∉ ε.bugs) (hδ : .endtime ∉ δ.bugs) :
    .endtime ∉ (ε.append δ).bugs := by
  simp [Log.append, hε, hδ]

theorem Step.timely (hconf : conf.TimeoOk) (h : Step conf c e c') (hc : c.Timely (e :: es)) :
    c'.Timely es := by
  cases h with
  | skip env => exact hc.at rfl (.of_none hc.timeo rfl) hc.bugs
  | start env hb hs ho =>
    obtain ⟨ht, hbugs⟩ := ho.timely hconf hc.timeo (hc.remote rfl)
    exact hc.at rfl ⟨ht.timeo, ht.within⟩ (append_endtime hc.bugs hbugs)
  | wait event env hslot hs =>
    obtain ⟨hw, hclock⟩ := hc.slot rfl hslot
    obtain ⟨ht, hbugs⟩ := hs.timely hc.timeo (hc.remote rfl).tmp hw hclock
    exact hc.at rfl ht (append_endtime hc.bugs hbugs)
  | finish event env hslot hs hm hu hf =>
    obtain ⟨hw, hclock⟩ := hc.slot rfl hslot
    obtain ⟨ht, hbugs⟩ := hs.timely hc.timeo (hc.remote rfl).tmp hw hclock
    obtain ⟨ht', hbugs'⟩ := hf.timely hconf ht.timeo (hc.remote rfl)
    exact hc.at rfl ht' (append_endtime (append_endtime hc.bugs hbugs) hbugs')
  | remove hslot => exact ⟨hc.timeo, by simp, hc.bugs, hc.clock, hc.remotes⟩
  | expire env hf =>
    obtain ⟨ht, hbugs⟩ := hf.timely hconf hc.timeo (hc.remote rfl)
    exact hc.at rfl ht (append_endtime (append_endtime hc.bugs (by simp)) hbugs)
  | share w => exact ⟨hc.timeo, hc.within, hc.bugs, hc.clock, hc.remotes⟩

end Solo

namespace AgentSlave

variable {talks : List (Talk P)} {conf : ConfNormal}

/-- While a talk has a registered event, the time of the event is up and its timer
expires no later than the talk's deadline; the assertion on the deadline never fires. -/
theorem registered_deadline (ctxs : EventCtxPool) (hb : Built talks) {ls : List Label}
    (hrun : (machine P conf).Admits (start ctxs talks) ls)
    (hclock : (ls.filterMap Label.env).Pairwise fun env env' => env.now ≤ env'.now)
    (hconf : conf.TimeoOk) (htalks : ∀ t ∈ talks, t.TimeoOk)
    (hremotes : ∀ env ∈ ls.filterMap Label.env, env.TimeoOk) :
    let s := ((machine P conf).exec (start ctxs talks) ls).session
    (∀ t ∈ s.talks, ∀ slot, s.driver t.fd = some slot →
      slot.ctx.lasttimeMs + slot.ctx.timeleftMs ≤ t.endtimeMs ∧
      ∃ expire, slot.expireTimeMs = some expire ∧ expire ≤ t.endtimeMs) ∧
    .endtime ∉ s.bugs := by
  intro s
  obtain ⟨hshows, -⟩ := shows_solos conf ctxs hb hrun
  have hsolo : ∀ c ∈ solos conf ctxs talks ls, c.Timely [] := by
    intro c hc
    refine solos_invariant (I := Solo.Timely) ?_ hb hrun ?_ hc
    · intro c e es _ _ _ h hstep
      exact hstep.timely hconf h
    · intro i t ht
      have hsub := trace_env conf (start ctxs talks) ls i
      exact {
        timeo := htalks t (List.mem_of_getElem? ht)
        within := by simp [Solo.start]
        bugs := by simp [Solo.start, Log.empty]
        clock := hclock.sublist hsub
        remotes := fun env he => hremotes env (hsub.subset he) }
  refine ⟨fun t ht slot hslot => ?_, fun h => ?_⟩
  · obtain ⟨c, hc, rfl, hcs⟩ := hshows.solo ht hslot
    have hw : slot.anon.Within c.talk.endtimeMs := ((hsolo c hc).within slot.anon hcs).1
    exact ⟨hw.deadline, _, hw.timer, hw.deadline⟩
  · obtain ⟨c, hc, hbc⟩ := hshows.bug h
    exact (hsolo c hc).bugs hbc

def slowRun : List Label :=
  [.reset (Rapid.connected 5 []),
    .ready 5 .kOut { Rapid.connected 5 [] with now := 30 },
    .ready 5 .kIn { Rapid.connected 5 [.data [1]] with now := 60 }]

theorem registered_deadline_slowRun :
    let s := ((machine Rapid.protocols ⟨50, 50, 50⟩).exec (start .empty [Rapid.oneTalk 0])
      slowRun).session
    (s.driver 5).bind (·.expireTimeMs) = some 80 ∧ ∀ t ∈ s.talks, ∀ slot,
      s.driver t.fd = some slot → slot.ctx.lasttimeMs + slot.ctx.timeleftMs ≤ t.endtimeMs ∧
      ∃ expire, slot.expireTimeMs = some expire ∧ expire ≤ t.endtimeMs := by
  have hrun : (machine Rapid.protocols ⟨50, 50, 50⟩).Admits (start .empty [Rapid.oneTalk 0])
      slowRun := by decide
  refine ⟨by decide, (registered_deadline .empty (Rapid.built_oneTalk 0) hrun (by decide)
    (by decide) ?_ (by decide)).1⟩
  intro t ht r hr
  obtain rfl := List.mem_singleton.mp ht
  cases hr

end AgentSlave

end Magneto
