import Magneto.SessionInv

/-!
# Runs of the agent slave on one session

The invariant of the slave's machine. A reply is sent exactly when the last
talk is counted; from then on no event of the session is registered and the
machine has no enabled step, so that the reply in the log is the session as the
procedure finds it.
-/

namespace Magneto

variable {P : Protocols} {A : Tolerance}

def Session.Descends (A : Tolerance) (talks : List (Talk P)) (s : Session P) : Prop :=
  ∀ t ∈ s.talks, ∃ t₀ ∈ talks, t₀.noTalk = t.noTalk ∧ t₀.Moves A t

theorem Talk.assign_startable (pools : PoolProtocols P) (now : ℤ) (args : Talk.Args P)
    (hfd : A.orphan ∨ 0 ≤ args.fd)
    (ht : A.untimed ∨ ∀ r, args.remote = some r → r.TimeoOk) :
    (Talk.assign pools now args).1.Startable A := by
  have hcase := Talk.assign_cases pools now args
  generalize Talk.assign pools now args = r at hcase ⊢
  have hbuf : ∀ buf, args.buf = some buf → (args.init now).buf.isSome :=
    fun buf hb => Option.isSome_iff_exists.mpr ⟨buf, hb⟩
  cases hcase with
  | skipped hb => exact .skipped hb rfl rfl rfl
  | unencoded buf w hb hc he =>
    exact .unencoded (hbuf buf hb) (by simp [Args.init]) rfl rfl rfl rfl
  | writeOnly buf w hb hc he =>
    exact .ready ⟨hbuf buf hb, fun _ => rfl, fun h => absurd hc h⟩ rfl (by simp [Args.init, hc])
      hfd ht rfl rfl
  | writeAndRead buf w q hb hc he =>
    exact .ready ⟨hbuf buf hb, fun _ => rfl, fun _ => rfl⟩ rfl (by simp [Args.init, hc])
      hfd ht rfl rfl
  | readOnly buf q hb hc =>
    exact .ready ⟨hbuf buf hb, fun h => absurd hc h, fun _ => rfl⟩ rfl (by simp [Args.init, hc])
      hfd ht rfl rfl

theorem Built.coherent {talks : List (Talk P)} (h : Built talks) : Talk.Coherent talks :=
  Talk.coherent_of_followAll fun i t ht =>
    let ⟨_, _, _, he⟩ := h.assigned i t ht
    ⟨_, he⟩

namespace AgentSlave

def RetryLeft (a : AgentSlave P) : Prop :=
  ∀ t ∈ a.session.talks, a.pc.cleaning = some t.noTalk → t.retry ≠ 0

/-- The steps that show no defect but the tolerated ones. -/
def Tolerated (A : Tolerance) (conf : ConfNormal) (a : AgentSlave P) : Label → Prop
  | .reset env => Session.Timed A conf env
  | .ready _ _ env => Session.Timed A conf env
  | .removeTimeouts _ => True
  | .cleanTimeout env => Session.Timed A conf env ∧ (A.expired ∨ a.RetryLeft)

structure Inv (A : Tolerance) (talks : List (Talk P)) (a : AgentSlave P) : Prop where
  session : a.session.Inv A a.pc
  descends : a.session.Descends A talks
  loop : ∀ i, a.pc = .reset i → i < a.session.talks.length
  busy : a.pc ≠ .clean []
  freed : a.freed ≤ a.sentBack.length
  replied : a.sentBack = [] ∧
      (a.pc.resetting = none → a.session.numTalksDone < a.session.talks.length) ∨
    ∃ e, a.sentBack = [⟨e, a.session⟩] ∧ a.pc = .poll ∧
      a.session.numTalksDone = a.session.talks.length ∧
      (e = .kOk → a.session.hasFailure = false ∧ ∃ t ∈ a.session.talks, t.buf.isSome)

variable {talks : List (Talk P)} {conf : ConfNormal} {a : AgentSlave P} {s s' : Session P}

theorem inv_poll {i : ℕ} (h : s.Inv A (.reset i)) (hi : s.talks.length ≤ i) :
    s.Inv A .poll := by
  refine { h with place := fun t ht => ?_, pending := ⟨.nil, by simp [Pc.pending]⟩ }
  have hat := h.place t ht
  have hlt : t.noTalk < s.talks.length := (List.getElem?_eq_some_iff.mp (h.lookup ht)).1
  have hplace : (Pc.reset i).place t.noTalk = .started := if_neg (by omega)
  rw [hplace] at hat
  exact hat

theorem inv_endReset {i : ℕ} (h : a.session.Inv A (.reset i)) (hd : a.session.Descends A talks)
    (hs : a.sentBack = []) (hf : a.freed = 0) : (endReset i a).Inv A talks := by
  unfold endReset
  dsimp only
  split_ifs with hi hdone
  · exact {
      session := h, descends := hd, freed := by simp [hf]
      loop := fun j hj => by cases hj; exact hi
      busy := by simp
      replied := .inl ⟨hs, by simp [Pc.resetting]⟩ }
  · have hp := inv_poll h (by omega)
    exact {
      session := hp, descends := hd, freed := by simp [sendBackMsg, hf]
      loop := by simp [sendBackMsg]
      busy := by simp [sendBackMsg]
      replied := .inr ⟨.kBroken, by simp [sendBackMsg, hs], rfl, hdone, by simp⟩ }
  · have hp := inv_poll h (by omega)
    exact {
      session := hp, descends := hd, freed := by simp [hf]
      loop := by simp
      busy := by simp
      replied := .inl ⟨hs, fun _ => lt_of_le_of_ne hp.done_le hdone⟩ }

theorem inv_endSession {pc : Pc} {finish : Bool} {error : ErrorNo} (h : s.Inv A pc)
    (hd : s.Descends A talks) (hs : a.sentBack = []) (hf : a.freed = 0)
    (hres : pc.resetting = none) (hbusy : pc ≠ .clean [])
    (hfin : finish = decide (s.numTalksDone = s.talks.length))
    (herr : error = .kOk → s.hasFailure = false ∧ ∃ t ∈ s.talks, t.buf.isSome) :
    (endSession finish error { a with session := s, pc := pc }).Inv A talks := by
  have hloop : ∀ i, pc = .reset i → i < s.talks.length := by
    rintro i rfl
    simp [Pc.resetting] at hres
  unfold endSession
  split_ifs with he
  · have hdone : s.numTalksDone = s.talks.length := by simpa [hfin] using he
    have hpoll : pc = .poll := by
      have hq := (h.quiet hdone).2
      cases pc with
      | reset i => simp [Pc.resetting] at hres
      | poll => rfl
      | clean timeouts =>
        have : timeouts = [] := by simpa [Pc.pending] using hq
        exact absurd (by rw [this]) hbusy
    exact {
      session := h, descends := hd, loop := hloop, busy := hbusy
      freed := by simp [sendBackMsg, hf]
      replied := .inr ⟨error, by simp [sendBackMsg, hs], hpoll, hdone, herr⟩ }
  · have hdone : s.numTalksDone ≠ s.talks.length := by simpa [hfin] using he
    exact {
      session := h, descends := hd, loop := hloop, busy := hbusy
      freed := by simp [hf]
      replied := .inl ⟨hs, fun _ => lt_of_le_of_ne h.done_le hdone⟩ }

@[simp] theorem endReset_session (i : ℕ) (a : AgentSlave P) :
    (endReset i a).session = a.session := by
  unfold endReset
  dsimp only
  split_ifs <;> rfl

@[simp] theorem endSession_session (finish : Bool) (error : ErrorNo) (a : AgentSlave P) :
    (endSession finish error a).session = a.session := by
  unfold endSession
  split_ifs <;> rfl

@[simp] theorem endSession_pc (finish : Bool) (error : ErrorNo) (a : AgentSlave P) :
    (endSession finish error a).pc = a.pc := by
  unfold endSession
  split_ifs <;> rfl

theorem descends_work {n : ℕ} {t u : Talk P} {env : Env} {pc : Pc} (h : s.Inv A pc)
    (hd : s.Descends A talks) (ht : s.talks[n]? = some t)
    (hw : Session.Worked A env (unregister s t.fd) t s' u) (hspares : t.Spares u) :
    (s'.setTalk u).Descends A talks := by
  intro x hx
  have hun : u.noTalk = n := hw.noTalk.trans (h.index n t ht)
  rcases (h.mem_setTalk ht hw.talks hun).mp hx with rfl | ⟨y, hy, hne, rfl⟩
  · obtain ⟨t₀, ht₀, hn, hm⟩ := hd t (List.mem_of_getElem? ht)
    exact ⟨t₀, ht₀, hn.trans hw.noTalk.symm, hm.trans hw.moves⟩
  · obtain ⟨t₀, ht₀, hn, hm⟩ := hd y hy
    exact ⟨t₀, ht₀, hn, hm.trans (h.follow_moves ht hw.moves.ids_eq.1 hspares hy hne)⟩

theorem not_enabled_of_quiet (hpc : a.pc = .poll) (hnone : ∀ fd, a.session.driver fd = none)
    (l : Label) : ¬ Enabled a l := by
  intro hl
  cases l with
  | reset env => simp [Enabled, hpc, Pc.resetting, FreshFor] at hl
  | ready fd event env => simp [Enabled, hnone, FreshFor] at hl
  | removeTimeouts fds =>
    obtain ⟨-, hne, -, htimer⟩ := hl
    obtain ⟨fd, hfd⟩ := List.exists_mem_of_ne_nil fds hne
    have := htimer fd hfd
    simp [HasTimer, hnone] at this
  | cleanTimeout env => simp [Enabled, hpc, Pc.cleaning, FreshFor] at hl

theorem Inv.unsent_of_enabled (h : a.Inv A talks) {l : Label} (hl : Enabled a l) :
    a.sentBack = [] := by
  rcases h.replied with ⟨hs, -⟩ | ⟨e, -, hpc, hdone, -⟩
  · exact hs
  · exact absurd hl (not_enabled_of_quiet hpc (h.session.quiet hdone).1 l)

theorem Inv.kOk_succeeded (h : a.Inv A talks) (hs : a.sentBack = [⟨.kOk, a.session⟩])
    {t : Talk P} (ht : t ∈ a.session.talks) (hbuf : t.buf.isSome) : t.Succeeded := by
  rcases h.replied with ⟨hnil, -⟩ | ⟨e, he, -, hdone, hok⟩
  · rw [hnil] at hs
    cases hs
  obtain rfl : e = .kOk := by simpa [he] using hs
  have hcounted : t.counted = true := by
    have hall := List.countP_eq_length.mp (h.session.done.symm.trans hdone)
    simpa using hall t ht
  rcases h.session.clean (hok rfl).1 t ht hcounted with hnone | hsucc
  · rw [hnone] at hbuf
    cases hbuf
  · exact hsucc

theorem Inv.freed_eq_zero (h : a.Inv A talks) (hs : a.sentBack = []) : a.freed = 0 := by
  have := h.freed
  simpa [hs] using this

/-- Everything an enabled step can do: it works on one talk, or takes the expired contexts. -/
inductive StepCase (A : Tolerance) (a : AgentSlave P) : Label → AgentSlave P → Prop
  | reset {env : Env} {i : ℕ} {t u : Talk P} {s' : Session P} (hpc : a.pc = .reset i)
      (hget : a.session.talks[i]? = some t) (hc : t.counted = false)
      (hfresh : Fresh a.session i env)
      (hw : Session.Worked A env (unregister a.session t.fd) t s' u) (hspares : t.Spares u) :
      StepCase A a (.reset env) (endReset (i + 1) { a with session := s'.setTalk u })
  | ready {env : Env} {fd : ℤ} {event : EventsDriver.Event} {n : ℕ} {t u : Talk P}
      {s' : Session P} (hpc : a.pc = .poll) (hget : a.session.talks[n]? = some t)
      (hc : t.counted = false) (hbuf : t.buf.isSome) (hfresh : Fresh a.session n env)
      (hw : Session.Worked A env (unregister a.session t.fd) t s' u) (hspares : t.Spares u) :
      StepCase A a (.ready fd event env)
        (endSession (decide (s'.numTalksDone = s'.talks.length))
          (if s'.hasFailure then .kPartial else .kOk) { a with session := s'.setTalk u })
  | cleanTimeout {env : Env} {ctx : EventCtx} {timeouts : List EventCtx} {t u : Talk P}
      {s' : Session P} (hpc : a.pc = .clean (ctx :: timeouts))
      (hget : a.session.talks[ctx.noTalk]? = some t) (hc : t.counted = false)
      (hfresh : Fresh a.session ctx.noTalk env)
      (hw : Session.Worked A env (unregister a.session t.fd) t s' u) (hspares : t.Spares u) :
      StepCase A a (.cleanTimeout env)
        (endSession (decide (s'.numTalksDone = s'.talks.length)) .kPartial
          { a with session := s'.setTalk u, pc := .cleanRest timeouts })
  | removeTimeouts (fds : List ℤ) :
      StepCase A a (.removeTimeouts fds)
        { a with
          session := { a.session with driver := (removeTimeouts a.session.driver fds).2 }
          pc := .clean (removeTimeouts a.session.driver fds).1 }

theorem Inv.reset_target (h : a.Inv A talks) {env : Env} (hl : Enabled a (.reset env)) :
    ∃ i t, a.pc = .reset i ∧ a.session.talks[i]? = some t ∧ t.Startable A ∧
      a.session.driver t.fd = none ∧ Fresh a.session i env := by
  cases hpc : a.pc with
  | poll => simp [Enabled, hpc, Pc.resetting, FreshFor] at hl
  | clean timeouts => simp [Enabled, hpc, Pc.resetting, FreshFor] at hl
  | reset i =>
    have hfresh : Fresh a.session i env := by
      simpa [Enabled, hpc, Pc.resetting, FreshFor] using hl
    have hget := List.getElem?_eq_getElem (h.loop i hpc)
    have hat := h.session.place _ (List.mem_of_getElem? hget)
    have hplace : (Pc.reset i).place i = .waiting := if_pos le_rfl
    rw [hpc, h.session.index i _ hget, hplace] at hat
    exact ⟨i, _, rfl, hget, hat.1, hat.2, hfresh⟩

theorem Inv.ready_target (h : a.Inv A talks) {fd : ℤ} {event : EventsDriver.Event} {env : Env}
    (hl : Enabled a (.ready fd event env)) :
    ∃ slot t, a.session.driver fd = some slot ∧ a.session.talks[slot.ctx.noTalk]? = some t ∧
      t.fd = fd ∧ t.Working A ∧ slot.ctx.noTalk = t.noTalk ∧
      (A.untimed ∨ slot.expireTimeMs.isSome) ∧ Fresh a.session slot.ctx.noTalk env := by
  obtain ⟨hpc, hfresh⟩ := hl
  cases hd : a.session.driver fd with
  | none => simp [hd, FreshFor] at hfresh
  | some slot =>
    have hfresh' : Fresh a.session slot.ctx.noTalk env := by simpa [hd, FreshFor] using hfresh
    obtain ⟨talk, hget, hfd, hw, hn, htm⟩ := h.session.talk_of_slot hd
    exact ⟨slot, talk, rfl, hget, hfd, hw, hn, htm, hfresh'⟩

theorem Inv.clean_target (h : a.Inv A talks) {env : Env} (hl : Enabled a (.cleanTimeout env)) :
    ∃ ctx timeouts t, a.pc = .clean (ctx :: timeouts) ∧
      a.session.talks[ctx.noTalk]? = some t ∧ t.Working A ∧ a.session.driver t.fd = none ∧
      Fresh a.session ctx.noTalk env := by
  cases hpc : a.pc with
  | reset i => simp [Enabled, hpc, Pc.cleaning, FreshFor] at hl
  | poll => simp [Enabled, hpc, Pc.cleaning, FreshFor] at hl
  | clean timeouts =>
    cases timeouts with
    | nil => exact absurd hpc h.busy
    | cons ctx timeouts =>
      have hfresh : Fresh a.session ctx.noTalk env := by
        simpa [Enabled, hpc, Pc.cleaning, FreshFor] using hl
      have hctx : ctx.noTalk ∈ a.pc.pending := by
        rw [hpc]
        exact List.mem_cons_self
      have hget := List.getElem?_eq_getElem (h.session.pending.2 _ hctx)
      have hat := h.session.place _ (List.mem_of_getElem? hget)
      rw [h.session.index _ _ hget, Pc.place_of_mem_pending hctx] at hat
      exact ⟨ctx, timeouts, _, rfl, hget, hat.1, hat.2, hfresh⟩

theorem step_reset (h : a.Inv A talks) {env : Env} (hl : Enabled a (.reset env))
    (ht : Session.Timed A conf env) : StepCase A a (.reset env) (next conf a (.reset env)) := by
  obtain ⟨i, talk, hpc, hget, hstart, hnone, hfresh⟩ := h.reset_target hl
  have hu := h.session.unregistered_of_none hget hfresh hnone
  have hw := Session.resetOne_worked hstart ht hu
  simp only [next, hpc, hget]
  exact .reset hpc hget hstart.counted hfresh ((unregister_of_none hnone).symm ▸ hw)
    (Session.resetOne_unwritten hstart)

theorem step_ready (h : a.Inv A talks) {fd : ℤ} {event : EventsDriver.Event} {env : Env}
    (hl : Enabled a (.ready fd event env)) (ht : Session.Timed A conf env) :
    StepCase A a (.ready fd event env) (next conf a (.ready fd event env)) := by
  obtain ⟨slot, talk, hd, hget, rfl, hw, hn, htm, hfresh⟩ := h.ready_target hl
  obtain ⟨hwork, heq⟩ := checkTalk_worked event hw hd hn htm ht
    (h.session.unregistered hget hfresh)
    (h.session.done_lt (List.mem_of_getElem? hget) hw.counted)
  simp only [next, hd, hget, heq]
  exact .ready hl.1 hget hw.counted hw.objects.buf hfresh hwork (absurd hw.error)

theorem step_cleanTimeout (h : a.Inv A talks) {env : Env}
    (hl : Enabled a (.cleanTimeout env)) (ht : Session.Timed A conf env)
    (hexp : A.expired ∨ a.RetryLeft) :
    StepCase A a (.cleanTimeout env) (next conf a (.cleanTimeout env)) := by
  obtain ⟨ctx, timeouts, talk, hpc, hget, hw, hnone, hfresh⟩ := h.clean_target hl
  have hu := h.session.unregistered_of_none hget hfresh hnone
  have hretry : A.expired ∨ talk.retry ≠ 0 := by
    refine hexp.imp_right fun hr => hr talk (List.mem_of_getElem? hget) ?_
    rw [hpc, h.session.index _ talk hget]
    rfl
  obtain ⟨hwork, heq⟩ := cleanTimeout_worked ctx hw ht hu hretry
  simp only [next, hpc, hget, heq]
  exact .cleanTimeout hpc hget hw.counted hfresh hwork (absurd hw.error)

theorem step_cases {l : Label} (h : a.Inv A talks) (hl : Enabled a l)
    (ht : Tolerated A conf a l) : StepCase A a l (next conf a l) := by
  cases l with
  | reset env => exact step_reset h hl ht
  | ready fd event env => exact step_ready h hl ht
  | removeTimeouts fds => exact .removeTimeouts fds
  | cleanTimeout env => exact step_cleanTimeout h hl ht.1 ht.2

theorem removeTimeouts_snd (d : EventsDriver) (fds : List ℤ) (fd : ℤ) :
    (removeTimeouts d fds).2 fd = if fd ∈ fds then none else d fd := by
  induction fds generalizing d with
  | nil => simp [removeTimeouts]
  | cons x fds ih =>
    rw [removeTimeouts, ih]
    by_cases hx : fd = x
    · simp [hx]
    · simp [hx, d.regEventDel_of_ne hx]

theorem removeTimeouts_fst (d : EventsDriver) {fds : List ℤ} (hn : fds.Nodup) :
    (removeTimeouts d fds).1 = fds.filterMap fun fd => (d fd).map (·.ctx) := by
  induction fds generalizing d with
  | nil => rfl
  | cons x fds ih =>
    obtain ⟨hx, hn⟩ := List.nodup_cons.mp hn
    have hrest : (fds.filterMap fun fd => (d.regEventDel x fd).map (·.ctx)) =
        fds.filterMap fun fd => (d fd).map (·.ctx) := by
      refine List.filterMap_congr fun fd hfd => ?_
      rw [d.regEventDel_of_ne (ne_of_mem_of_not_mem hfd hx)]
    rw [removeTimeouts, ih _ hn, hrest, List.filterMap_cons]
    cases d x <;> rfl

theorem pending_removeTimeouts (d : EventsDriver) {fds : List ℤ} (hn : fds.Nodup) :
    (Pc.clean (removeTimeouts d fds).1).pending =
      fds.filterMap fun fd => (d fd).map (·.ctx.noTalk) := by
  rw [Pc.pending, removeTimeouts_fst _ hn, List.map_filterMap]
  simp only [Option.map_map]
  rfl

section RemoveTimeouts

variable {s : Session P} {pc : Pc} {fds : List ℤ}

theorem talk_of_timer (h : s.Inv A pc) {fd : ℤ} (ht : HasTimer s.driver fd) :
    ∃ t ∈ s.talks, t.fd = fd ∧ t.Working A ∧
      (s.driver fd).map (·.ctx.noTalk) = some t.noTalk := by
  cases hd : s.driver fd with
  | none => simp [HasTimer, hd] at ht
  | some slot =>
    obtain ⟨t, hget, hfd, hw, hn, -⟩ := h.talk_of_slot hd
    exact ⟨t, List.mem_of_getElem? hget, hfd, hw, by simp [hn]⟩

theorem mem_pending_removeTimeouts (h : s.Inv A pc) (hnodup : fds.Nodup)
    (htimer : ∀ fd ∈ fds, HasTimer s.driver fd) {t : Talk P} (ht : t ∈ s.talks) :
    t.noTalk ∈ (Pc.clean (removeTimeouts s.driver fds).1).pending ↔ t.fd ∈ fds := by
  rw [pending_removeTimeouts _ hnodup, List.mem_filterMap]
  constructor
  · rintro ⟨fd, hfd, he⟩
    obtain ⟨x, hx, hxfd, -, hxn⟩ := talk_of_timer h (htimer fd hfd)
    rw [he] at hxn
    have hxt := h.eq_of_noTalk (h.lookup ht) hx (Option.some.inj hxn).symm
    rw [← hxt, hxfd]
    exact hfd
  · intro hfd
    obtain ⟨x, hx, hxfd, hw, hxn⟩ := talk_of_timer h (htimer t.fd hfd)
    have hxt := h.distinct x hx t ht hw.fd hxfd
    exact ⟨t.fd, hfd, by rw [hxn, hxt]⟩

theorem inv_removeTimeouts (h : s.Inv A .poll) (hnodup : fds.Nodup)
    (htimer : ∀ fd ∈ fds, HasTimer s.driver fd) :
    Session.Inv A { s with driver := (removeTimeouts s.driver fds).2 }
      (.clean (removeTimeouts s.driver fds).1) where
  index := h.index
  distinct := h.distinct
  done := h.done
  clean := h.clean
  coherent := h.coherent
  apart := h.apart
  bugs := h.bugs
  place := by
    intro t ht
    have hmem := mem_pending_removeTimeouts h hnodup htimer ht
    by_cases hfd : t.fd ∈ fds
    · rw [Pc.place_of_mem_pending (hmem.mpr hfd)]
      obtain ⟨x, hx, hxfd, hw, -⟩ := talk_of_timer h (htimer t.fd hfd)
      obtain rfl := h.eq_of_noTalk (h.lookup ht) hx (h.distinct x hx t ht hw.fd hxfd)
      exact ⟨hw, by simp [removeTimeouts_snd, hfd]⟩
    · have hplace : (Pc.clean (removeTimeouts s.driver fds).1).place t.noTalk = .started :=
        if_neg (mt hmem.mp hfd)
      rw [hplace]
      exact Talk.Started.congr (h.place t ht) (by simp [removeTimeouts_snd, hfd])
  owned := by
    intro fd slot hd
    simp only [removeTimeouts_snd] at hd
    split_ifs at hd
    exact h.owned fd slot hd
  pending := by
    rw [pending_removeTimeouts _ hnodup]
    constructor
    · refine hnodup.filterMap fun fd fd' n hn hn' => ?_
      obtain ⟨slot, hslot, rfl⟩ := Option.map_eq_some_iff.mp hn
      obtain ⟨slot', hslot', hn'⟩ := Option.map_eq_some_iff.mp hn'
      obtain ⟨t, ht, htfd, -⟩ := h.talk_of_slot hslot
      obtain ⟨t', ht', htfd', -⟩ := h.talk_of_slot hslot'
      rw [hn', ht] at ht'
      rw [← htfd, ← htfd', Option.some.inj ht']
    · intro i hi
      obtain ⟨fd, hfd, he⟩ := List.mem_filterMap.mp hi
      obtain ⟨x, hx, -, -, hxn⟩ := talk_of_timer h (htimer fd hfd)
      rw [he] at hxn
      rw [Option.some.inj hxn]
      exact (List.getElem?_eq_some_iff.mp (h.lookup hx)).1

end RemoveTimeouts

theorem inv_next_removeTimeouts (h : a.Inv A talks) {fds : List ℤ}
    (hl : Enabled a (.removeTimeouts fds)) :
    (next conf a (.removeTimeouts fds)).Inv A talks := by
  have hs := h.unsent_of_enabled hl
  obtain ⟨hpc, hne, hnodup, htimer⟩ := hl
  have hsess : a.session.Inv A .poll := hpc ▸ h.session
  obtain ⟨fd, hfd⟩ := List.exists_mem_of_ne_nil fds hne
  obtain ⟨t, ht, htfd, hw, -⟩ := talk_of_timer hsess (htimer fd hfd)
  have hin := (mem_pending_removeTimeouts hsess hnodup htimer ht).mpr (htfd ▸ hfd)
  exact {
    session := inv_removeTimeouts hsess hnodup htimer
    descends := h.descends, freed := h.freed
    loop := by simp [next]
    busy := by
      show Pc.clean (removeTimeouts a.session.driver fds).1 ≠ _
      intro he
      rw [he] at hin
      simp [Pc.pending] at hin
    replied := .inl ⟨hs, fun _ => hsess.done_lt ht hw.counted⟩ }

theorem inv_next {l : Label} (h : a.Inv A talks) (hl : Enabled a l) (ht : Tolerated A conf a l) :
    (next conf a l).Inv A talks := by
  have hs := h.unsent_of_enabled hl
  have hf := h.freed_eq_zero hs
  have hstep := step_cases h hl ht
  have hsess := h.session
  have hlen : ∀ (s' : Session P) (u : Talk P), (s'.setTalk u).talks.length = s'.talks.length := by
    simp [Session.setTalk]
  generalize hnext : next conf a l = a' at hstep ⊢
  cases hstep with
  | reset hpc hget hc hfresh hw hspares =>
    rename_i env i t u s'
    rw [hpc] at hsess
    exact inv_endReset (hsess.work (.reset (i + 1)) hget hc hw hspares hfresh
      (Pc.place_reset_self i)
      (fun _ => Pc.place_reset_of_ne) ⟨.nil, by simp [Pc.pending]⟩)
      (descends_work hsess h.descends hget hw hspares) hs hf
  | ready hpc hget hc hbuf hfresh hw hspares =>
    rename_i env fd event n t u s'
    have hinv := hsess.work a.pc hget hc hw hspares hfresh (by rw [hpc]; rfl) (fun _ _ => rfl)
      hsess.pending
    refine inv_endSession hinv (descends_work hsess h.descends hget hw hspares) hs hf
      (by simp [hpc, Pc.resetting]) h.busy (by rw [hlen]; rfl) fun he => ?_
    have hun : u.noTalk = n := hw.noTalk.trans (hsess.index n t hget)
    have hfail : s'.hasFailure = false := by
      cases hb : s'.hasFailure with
      | false => rfl
      | true => simp [hb] at he
    exact ⟨hfail, u, (hsess.mem_setTalk hget hw.talks hun).mpr (.inl rfl), hw.moves.buf_eq ▸ hbuf⟩
  | cleanTimeout hpc hget hc hfresh hw hspares =>
    rename_i env ctx timeouts t u s'
    rw [hpc] at hsess
    obtain ⟨hnodup, hlt⟩ := hsess.pending
    obtain ⟨hnotin, hnodup'⟩ := List.nodup_cons.mp hnodup
    have hinv := hsess.work (.cleanRest timeouts) hget hc hw hspares hfresh ?_ ?_ ?_
    · exact inv_endSession hinv (descends_work hsess h.descends hget hw hspares) hs hf
        (Pc.resetting_cleanRest _) (Pc.cleanRest_ne _) (by rw [hlen]; rfl) (by simp)
    · rw [Pc.place_cleanRest]
      exact if_neg hnotin
    · intro m hm
      rw [Pc.place_cleanRest]
      simp [Pc.place, hm]
    · rw [Pc.pending_cleanRest]
      exact ⟨hnodup', fun i hi => hlt i (List.mem_cons_of_mem _ hi)⟩
  | removeTimeouts fds => exact hnext ▸ inv_next_removeTimeouts h hl

theorem hasFailure_sticky {l : Label} (h : a.Inv A talks) (hl : Enabled a l)
    (ht : Tolerated A conf a l) (hf : (next conf a l).session.hasFailure = false) :
    a.session.hasFailure = false := by
  have hstep := step_cases h hl ht
  generalize next conf a l = a' at hstep hf
  cases hstep with
  | reset hpc hget hc hfresh hw hspares =>
    exact (hw.failure (by simpa [Session.setTalk] using hf)).1
  | ready hpc hget hc hbuf hfresh hw hspares =>
    exact (hw.failure (by simpa [Session.setTalk] using hf)).1
  | cleanTimeout hpc hget hc hfresh hw hspares =>
    exact (hw.failure (by simpa [Session.setTalk] using hf)).1
  | removeTimeouts fds => exact hf

theorem next_fd {l : Label} (h : a.Inv A talks) (hl : Enabled a l) (ht : Tolerated A conf a l)
    {x : Talk P} (hx : x ∈ (next conf a l).session.talks) :
    (∃ t ∈ a.session.talks, x.fd = t.fd) ∨ x.fd ≤ 0 ∨
      ∃ env, l.env = some env ∧ 0 < env.getFd.fd ∧ x.fd = env.getFd.fd := by
  have key : ∀ {n : ℕ} {t u : Talk P} {s' : Session P} {env : Env}, l.env = some env →
      a.session.talks[n]? = some t →
      Session.Worked A env (unregister a.session t.fd) t s' u → x ∈ (s'.setTalk u).talks →
      (∃ t ∈ a.session.talks, x.fd = t.fd) ∨ x.fd ≤ 0 ∨
        ∃ env, l.env = some env ∧ 0 < env.getFd.fd ∧ x.fd = env.getFd.fd := by
    intro n t u s' env henv hget hw hx
    have hun : u.noTalk = n := hw.noTalk.trans (h.session.index n t hget)
    rcases (h.session.mem_setTalk hget hw.talks hun).mp hx with rfl | ⟨y, hy, -, rfl⟩
    · rcases hw.fd with hfd | hfd | hfd
      · exact .inl ⟨t, List.mem_of_getElem? hget, hfd⟩
      · exact .inr (.inl hfd)
      · exact .inr (.inr ⟨env, henv, hfd⟩)
    · exact .inl ⟨y, hy, rfl⟩
  have hstep := step_cases h hl ht
  generalize next conf a l = a' at hstep hx
  cases hstep with
  | reset hpc hget hc hfresh hw hspares => exact key rfl hget hw (by simpa using hx)
  | ready hpc hget hc hbuf hfresh hw hspares => exact key rfl hget hw (by simpa using hx)
  | cleanTimeout hpc hget hc hfresh hw hspares => exact key rfl hget hw (by simpa using hx)
  | removeTimeouts fds => exact .inl ⟨x, hx, rfl⟩

theorem inv_start (ctxs : EventCtxPool) (hb : Built talks) (hs : ∀ t ∈ talks, t.Startable A)
    (hapart : A.shared ∨ Talk.Apart talks) : (start ctxs talks).Inv A talks := by
  have hcount : talks.countP (·.counted) = 0 := by
    rw [List.countP_eq_zero]
    intro t ht
    simp [(hs t ht).counted]
  refine inv_endReset ?_ (fun t ht => ⟨t, ht, rfl, .refl⟩) rfl rfl
  exact {
    index := hb.index
    distinct := by
      intro t ht u hu hpos he
      obtain ⟨i, hi, rfl⟩ := List.mem_iff_getElem.mp ht
      obtain ⟨j, hj, rfl⟩ := List.mem_iff_getElem.mp hu
      have hpair := List.pairwise_iff_getElem.mp hb.distinct
      rcases lt_trichotomy i j with hij | rfl | hij
      · exact absurd he (hpair i j hi hj hij hpos)
      · rfl
      · exact absurd he.symm (hpair j i hj hi hij (he ▸ hpos))
    place := fun t ht => ⟨hs t ht, rfl⟩
    owned := by simp [EventsDriver.empty]
    pending := ⟨.nil, by simp [Pc.pending]⟩
    done := hcount.symm
    clean := fun _ t ht hc => by simp [(hs t ht).counted] at hc
    coherent := hb.coherent
    apart := hapart.imp_right fun ha => ha.error_of_same
    bugs := by simp }

theorem start_talks (ctxs : EventCtxPool) (talks : List (Talk P)) :
    (start ctxs talks).session.talks = talks := by
  simp [start]

theorem tolerated_of (hu : A.untimed) (he : A.expired) (conf : ConfNormal) (a : AgentSlave P)
    (l : Label) : Tolerated A conf a l := by
  cases l with
  | cleanTimeout env => exact ⟨.inl hu, .inl he⟩
  | removeTimeouts fds => trivial
  | _ => exact .inl hu

theorem tolerated_all (conf : ConfNormal) (a : AgentSlave P) (l : Label) :
    Tolerated .all conf a l := tolerated_of trivial trivial conf a l

theorem Built.startable (hb : Built talks) : ∀ t ∈ talks, t.Startable .all := by
  intro t ht
  obtain ⟨i, hi⟩ := List.mem_iff_getElem?.mp ht
  obtain ⟨pools, now, args, rfl⟩ := hb.assigned i t hi
  exact (Talk.assign_startable pools now args (.inl trivial) (.inl trivial)).followAll _

theorem inv_exec_all {ctxs : EventCtxPool} (hb : Built talks) {ls : List Label}
    (hrun : (machine P conf).Admits (start ctxs talks) ls) :
    ((machine P conf).exec (start ctxs talks) ls).Inv .all talks :=
  (machine P conf).invariant (I := Inv .all talks)
    (fun a l h hl => inv_next h hl (tolerated_all conf a l))
    (inv_start ctxs hb (Built.startable hb) (.inl trivial)) hrun

/-- A reply is the finished session: no event is left and every talk is settled. -/
theorem Inv.reply (h : a.Inv A talks) {r : Reply P} (hr : r ∈ a.sentBack) :
    r.session = a.session ∧ (∀ fd, r.session.driver fd = none) ∧
      ∀ t ∈ r.session.talks, t.Settled A := by
  rcases h.replied with ⟨hs, -⟩ | ⟨e, hs, hpc, hdone, -⟩
  · simp [hs] at hr
  obtain rfl : r = ⟨e, a.session⟩ := by simpa [hs] using hr
  obtain ⟨hnone, -⟩ := h.session.quiet hdone
  refine ⟨rfl, hnone, fun t ht => ?_⟩
  have hcounted : t.counted = true := by
    have hall := List.countP_eq_length.mp (h.session.done.symm.trans hdone)
    simpa using hall t ht
  have hat := h.session.place t ht
  rw [hpc] at hat
  rcases hat with ⟨hw, -⟩ | ⟨-, hset⟩ | ⟨-, -, ho⟩
  · simp [hw.counted] at hcounted
  · exact hset
  · simp [ho.counted] at hcounted

end AgentSlave

end Magneto
