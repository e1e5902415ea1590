import Magneto.IOBasicSets

/-!
# A `Read` never reads

`IOBasic::Read` assigns its talks without a buffer, and `Talk::Assign` takes a talk without a
buffer for one that has nothing to do. `Session::Reset` counts it as done, so no connection is
asked for, no event is registered and no reader is attached; the slave answers the session
with `kBroken` when the last talk is counted.
-/

namespace Magneto

variable {P : Protocols}

def Op.IsRead : Op P → Prop
  | .read _ => True
  | .reads services => services ≠ []
  | _ => False

/-- A talk that was assigned without a buffer. -/
structure Talk.Skipped (t : Talk P) : Prop where
  status : t.status = .kEnd
  error : t.error = .kOk
  reader : t.protocolRead = none
  attempt : t.attempt = .fresh

def Talk.WaitsForInput (d : EventsDriver) (t : Talk P) : Prop :=
  t.protocolRead.isSome ∧ (d t.fd).isSome

theorem Talk.Skipped.setCounted {t : Talk P} (h : t.Skipped) (c : Bool) :
    Talk.Skipped { t with counted := c } := ⟨h.status, h.error, h.reader, h.attempt⟩

theorem Talk.Skipped.follow {t : Talk P} (h : t.Skipped) (u : Talk P) : (u.follow t).Skipped :=
  ⟨h.status, h.error, h.reader, h.attempt⟩

theorem Talk.Skipped.followAll {t : Talk P} (h : t.Skipped) (us : List (Talk P)) :
    (followAll us t).Skipped := by
  induction us generalizing t with
  | nil => exact h
  | cons u us ih => exact ih (h.follow u)

namespace AgentSlave

structure Idle (a : AgentSlave P) : Prop where
  driver : a.session.driver = .empty
  talks : ∀ t ∈ a.session.talks, t.Skipped
  pc : a.pc.cleaning = none
  replies : ∀ r ∈ a.sentBack, r.error = .kBroken

variable {a : AgentSlave P} {conf : ConfNormal} {env : Env}

theorem Idle.endReset (h : a.Idle) (i : ℕ) : (endReset i a).Idle := by
  unfold AgentSlave.endReset
  split_ifs
  · exact ⟨h.driver, h.talks, rfl, h.replies⟩
  · dsimp only
    split_ifs
    · refine ⟨h.driver, h.talks, rfl, fun r hr => ?_⟩
      rcases List.mem_append.mp hr with hr | hr
      · exact h.replies r hr
      · rw [List.mem_singleton.mp hr]
    · exact ⟨h.driver, h.talks, rfl, h.replies⟩

theorem resetOne_skipped {s : Session P} {t : Talk P} (ht : t.Skipped) :
    Session.resetOne conf env s t =
      ({ s with numTalksDone := s.numTalksDone + 1 }, { t with counted := true }) :=
  if_pos ht.status

theorem Idle.reset (h : a.Idle) {i : ℕ} {t : Talk P} (hi : a.session.talks[i]? = some t)
    (hpc : a.pc = .reset i) :
    next conf a (.reset env) = AgentSlave.endReset (i + 1) { a with
      session := Session.setTalk { a.session with numTalksDone := a.session.numTalksDone + 1 }
        { t with counted := true } } := by
  simp only [next, hpc, hi, resetOne_skipped (h.talks t (List.mem_of_getElem? hi))]

theorem Idle.setTalk (h : a.Idle) {t : Talk P} (ht : t.Skipped) (n : ℕ) :
    Idle { a with session := Session.setTalk { a.session with numTalksDone := n } t } := by
  refine ⟨h.driver, fun u hu => ?_, h.pc, h.replies⟩
  rcases List.mem_or_eq_of_mem_set hu with hu | rfl
  · obtain ⟨v, hv, rfl⟩ := List.mem_map.mp hu
    exact (h.talks v hv).follow t
  · exact ht

theorem Idle.next (h : a.Idle) {l : Label} (hl : Enabled a l) : (next conf a l).Idle := by
  cases l with
  | reset env =>
    cases hpc : a.pc with
    | reset i =>
      cases hi : a.session.talks[i]? with
      | some t =>
        rw [h.reset hi hpc]
        have ht := h.talks t (List.mem_of_getElem? hi)
        exact (h.setTalk (ht.setCounted true) _).endReset (i + 1)
      | none =>
        simp only [AgentSlave.next, hpc, hi]
        exact h
    | poll =>
      simp only [AgentSlave.next, hpc]
      exact h
    | clean timeouts =>
      simp only [AgentSlave.next, hpc]
      exact h
  | ready fd event env =>
    have hslot : a.session.driver fd = none := by rw [h.driver]; rfl
    simp only [AgentSlave.next, hslot]
    exact h
  | removeTimeouts fds =>
    obtain ⟨-, hne, -, htimer⟩ := hl
    obtain ⟨fd, hfd⟩ := List.exists_mem_of_ne_nil fds hne
    have habsurd := htimer fd hfd
    rw [h.driver] at habsurd
    exact absurd habsurd (by simp [HasTimer, EventsDriver.empty])
  | cleanTimeout env =>
    have hcleaning : FreshFor a.session env a.pc.cleaning := hl
    rw [h.pc] at hcleaning
    exact absurd hcleaning id

section run

variable {talks : List (Talk P)} (hskip : ∀ t ∈ talks, t.Skipped) (ctxs : EventCtxPool)

include hskip

theorem start_idle : (start ctxs talks).Idle :=
  Idle.endReset ⟨rfl, hskip, rfl, by simp⟩ 0

theorem exec_idle {ls : List Label} (hrun : (machine P conf).Admits (start ctxs talks) ls) :
    ((machine P conf).exec (start ctxs talks) ls).Idle :=
  (machine P conf).invariant (I := Idle) (fun _ _ h hl => h.next hl) (start_idle hskip ctxs) hrun

end run

theorem pc_endReset (i : ℕ) (a : AgentSlave P) :
    (endReset i a).pc = if i < a.session.talks.length then .reset i else .poll := by
  unfold endReset
  split_ifs
  · rfl
  · dsimp only
    split_ifs <;> rfl

theorem Idle.reset_noFd (conf : ConfNormal) (h : a.Idle) {i : ℕ} (hpc : a.pc = .reset i)
    (hlt : i < a.session.talks.length) :
    Enabled a (.reset noFd) ∧
      (AgentSlave.next conf a (.reset noFd)).pc =
        (if i + 1 < a.session.talks.length then .reset (i + 1) else .poll) ∧
      (AgentSlave.next conf a (.reset noFd)).session.talks.length = a.session.talks.length := by
  have hi : a.session.talks[i]? = some a.session.talks[i] := List.getElem?_eq_getElem hlt
  refine ⟨?_, ?_⟩
  · simp only [Enabled, hpc, Pc.resetting, FreshFor]
    exact fresh_noFd _ _
  · rw [h.reset hi hpc, pc_endReset, endReset_session]
    simp [Session.setTalk]

theorem Idle.reset_run (conf : ConfNormal) (h : a.Idle) {i k : ℕ} (hpc : a.pc = .reset i)
    (hk : i + k + 1 = a.session.talks.length) :
    ∃ ls, (machine P conf).Admits a ls ∧ ((machine P conf).exec a ls).pc = .poll ∧
      ((machine P conf).exec a ls).session.talks.length = a.session.talks.length := by
  induction k generalizing a i with
  | zero =>
    obtain ⟨hl, hpc', hlen⟩ := h.reset_noFd conf hpc (by omega)
    rw [if_neg (by omega)] at hpc'
    exact ⟨[.reset noFd], ⟨hl, trivial⟩, hpc', hlen⟩
  | succ k ih =>
    obtain ⟨hl, hpc', hlen⟩ := h.reset_noFd conf hpc (by omega)
    rw [if_pos (by omega)] at hpc'
    obtain ⟨ls, hadm, hpoll, hlen'⟩ := ih (h.next hl) hpc' (by omega)
    exact ⟨.reset noFd :: ls, ⟨hl, hadm⟩, hpoll, hlen'.trans hlen⟩

theorem exists_poll (conf : ConfNormal) {talks : List (Talk P)} (hskip : ∀ t ∈ talks, t.Skipped)
    (hne : talks ≠ []) (ctxs : EventCtxPool) :
    ∃ ls, (machine P conf).Admits (start ctxs talks) ls ∧
      ((machine P conf).exec (start ctxs talks) ls).pc = .poll ∧
      ((machine P conf).exec (start ctxs talks) ls).session.talks ≠ [] := by
  have hpos : 0 < talks.length := List.length_pos_of_ne_nil hne
  have htalks : (start ctxs talks).session.talks = talks := by simp [start]
  have hpc : (start ctxs talks).pc = .reset 0 := (pc_endReset 0 _).trans (if_pos hpos)
  obtain ⟨ls, hadm, hpoll, hlen⟩ := (start_idle hskip ctxs).reset_run conf hpc
    (show 0 + (talks.length - 1) + 1 = _ by rw [htalks]; omega)
  refine ⟨ls, hadm, hpoll, List.ne_nil_of_length_pos ?_⟩
  rw [hlen, htalks]
  exact hpos

end AgentSlave

namespace BizProcedure

theorem assignTalks_skipped {category : Talk.Category} {timeoMs now : ℤ}
    {reqs : List (Service × Option P.Buf)} (h : ∀ r ∈ reqs, r.2 = none) (n : ℕ)
    (cache : ServiceCache) (pools : PoolProtocols P) :
    ∀ t ∈ (assignTalks category timeoMs now reqs n cache pools).1, t.Skipped := by
  induction reqs generalizing n cache pools with
  | nil => simp [assignTalks]
  | cons req reqs ih =>
    obtain ⟨service, buf⟩ := req
    obtain rfl : buf = none := h (service, buf) List.mem_cons_self
    intro t ht
    rcases List.mem_cons.mp ht with rfl | ht
    · exact Talk.Skipped.followAll ⟨rfl, rfl, rfl, rfl⟩ _
    · exact ih (fun r hr => h r (List.mem_cons_of_mem _ hr)) _ _ _ t ht

section read

variable {op : Op P} (hop : op.IsRead)

include hop

theorem isRead_reqs : op.reqs ≠ [] ∧ (∀ r ∈ op.reqs, r.2 = none) ∧
    (∀ buf, op ≠ .writeBack buf) ∧ checksEncode op = false := by
  cases op with
  | read service => exact ⟨by simp [Op.reqs], by simp [Op.reqs], by simp, rfl⟩
  | reads services =>
    refine ⟨?_, by simp [Op.reqs], by simp, rfl⟩
    simpa [Op.reqs] using show services ≠ [] from hop
  | writes reqs => exact absurd hop id
  | talks reqs => exact absurd hop id
  | write service buf => exact absurd hop id
  | simpleTalk service buf => exact absurd hop id
  | writeBack buf => exact absurd hop id

theorem buildTalks_read (b : BizProcedure P) (timeoMs now : ℤ) :
    (b.buildTalks op timeoMs now).1 ≠ [] ∧
      (∀ t ∈ (b.buildTalks op timeoMs now).1, t.Skipped) ∧
      (b.buildTalks op timeoMs now).2.waiting = b.waiting := by
  obtain ⟨hne, hnone, hback, -⟩ := isRead_reqs hop
  have hservice := b.buildTalks_service hback timeoMs now
  obtain ⟨category, heq⟩ := b.buildTalks_reqs hback timeoMs now
  rw [heq] at hservice ⊢
  refine ⟨fun hnil => ?_, assignTalks_skipped hnone 0 b.serviceCache b.pools, rfl⟩
  rw [hnil] at hservice
  simp [Op.services, hne] at hservice

theorem read_returns {conf : ConfNormal} {b : BizProcedure P} {timeoMs now : ℤ}
    {ctxs : EventCtxPool} {ls : List AgentSlave.Label} (hrun : (machine P conf).Admits b
      (.call op timeoMs now true ctxs :: (ls.map .agent ++ [.resume]))) :
    ∃ r, ((machine P conf).exec b (.call op timeoMs now true ctxs ::
      (ls.map .agent ++ [.resume]))).returns.getLast? = some r ∧ r.ret = .kBroken := by
  obtain ⟨-, hskip, hwaiting⟩ := buildTalks_read hop b timeoMs now
  obtain ⟨hnone, hrest⟩ := hrun
  have hwait := hwaiting.trans (Option.isNone_iff_eq_none.mp hnone)
  have hcall : b.call op timeoMs now true ctxs = _ := call_posted hwait hrest
  change (machine P conf).Admits (b.call op timeoMs now true ctxs) _ at hrest
  rw [hcall] at hrest
  obtain ⟨hadm, q, -, hag, hexec, hreplied, -⟩ := exec_agents rfl hrest
  have hidle := AgentSlave.exec_idle hskip ctxs hadm
  rw [← hag] at hidle
  have hsent : q.agent.sentBack.isEmpty = false := hreplied
  show ∃ r, ((machine P conf).exec (b.call op timeoMs now true ctxs)
    (ls.map .agent ++ [.resume])).returns.getLast? = some r ∧ r.ret = .kBroken
  rw [hcall, Machine.exec_append, hexec]
  show ∃ r, (resume { (b.buildTalks op timeoMs now).2 with waiting := some q }).returns.getLast? =
    some r ∧ r.ret = .kBroken
  cases hs : q.agent.sentBack with
  | nil => simp [hs] at hsent
  | cons reply rest =>
    have herror := hidle.replies reply (hs ▸ List.mem_cons_self)
    simp only [resume, hs]
    exact ⟨_, List.getLast?_append_of_ne_nil _ (by simp), herror⟩

end read

section expected

variable (conf : ConfNormal) (b : BizProcedure P) (op : Op P) (timeoMs now : ℤ)
  (ctxs : EventCtxPool)

def NoneFinished : Prop := ∀ t ∈ (b.buildTalks op timeoMs now).1, t.status ≠ .kEnd

def EachWaits : Prop :=
  ∀ ls, (AgentSlave.machine P conf).Admits
      (AgentSlave.start ctxs (b.buildTalks op timeoMs now).1) ls →
    let a := (AgentSlave.machine P conf).exec
      (AgentSlave.start ctxs (b.buildTalks op timeoMs now).1) ls
    a.pc = .poll → ∀ t ∈ a.session.talks, t.WaitsForInput a.session.driver ∨ t.error ≠ .kOk ∨
      t.attempt.passed t.category = true

/-- At every step a connection is to be had, the deadline has not come, and every service has
delivered one complete reply, which decodes. -/
def Delivered (P : Protocols) (op : Op P) (timeoMs now : ℤ) (ls : List AgentSlave.Label) : Prop :=
  ∀ env ∈ ls.filterMap AgentSlave.Label.env,
    env.now < now + timeoMs ∧ 0 < env.getFd.fd ∧ env.addOk = true ∧ env.modOk = true ∧
    ∀ service ∈ op.services,
      let c := P.read (P.resetReader (P.newReader service.protocolCategory)) env.sockIn
      c.ret = 0 ∧ (P.decode c.reader).1 = true

def Answers : Prop :=
  ∀ ls, (machine P conf).Admits b
      (.call op timeoMs now true ctxs :: (ls.map .agent ++ [.resume])) →
    Delivered P op timeoMs now ls → ∃ r, ((machine P conf).exec b (.call op timeoMs now true
      ctxs :: (ls.map .agent ++ [.resume]))).returns.getLast? = some r ∧ r.ret = .kOk

end expected

/-- Whatever the service or the set, the service cache and the timeout: the talks of a `Read`
are taken for ended ones, none of them waits, fails or completes, and the operation does not
return `kOk`, also when every service delivers its reply. -/
theorem read_never_reads (conf : ConfNormal) (b : BizProcedure P) (op : Op P) (hop : op.IsRead)
    (timeoMs now : ℤ) (ctxs : EventCtxPool) :
    ¬ NoneFinished b op timeoMs now ∧ ¬ EachWaits conf b op timeoMs now ctxs ∧
      (Answers conf b op timeoMs now ctxs → ∀ ls, (machine P conf).Admits b
        (.call op timeoMs now true ctxs :: (ls.map .agent ++ [.resume])) →
        ¬ Delivered P op timeoMs now ls) := by
  obtain ⟨hne, hskip, -⟩ := buildTalks_read hop b timeoMs now
  refine ⟨fun h => ?_, fun h => ?_, fun h ls hrun hdel => ?_⟩
  · obtain ⟨t, ht⟩ := List.exists_mem_of_ne_nil _ hne
    exact h t ht (hskip t ht).status
  · obtain ⟨ls, hadm, hpoll, htalks⟩ := AgentSlave.exists_poll conf hskip hne ctxs
    obtain ⟨t, ht⟩ := List.exists_mem_of_ne_nil _ htalks
    have hidle := (AgentSlave.exec_idle hskip ctxs hadm).talks t ht
    rcases h ls hadm hpoll t ht with hwaits | herror | hdone
    · have hreader := hwaits.1
      rw [hidle.reader] at hreader
      simp at hreader
    · exact herror hidle.error
    · rw [hidle.attempt] at hdone
      cases hc : t.category <;> simp [hc, Talk.Attempt.passed, Talk.Attempt.fresh] at hdone
  · obtain ⟨r, hr, hok⟩ := h ls hrun hdel
    obtain ⟨r', hr', hbroken⟩ := read_returns hop hrun
    obtain rfl : r = r' := Option.some.inj (hr.symm.trans hr')
    rw [hok] at hbroken
    cases hbroken

def readRun : List AgentSlave.Label := [.reset (Rapid.connected 5 [.data (Rapid.frame [9])])]

def oneRead : Op Rapid.protocols := .read (Rapid.oneService 0)

theorem readRun_delivered : Delivered Rapid.protocols oneRead 100 0 readRun := by
  intro env henv
  obtain rfl : env = Rapid.connected 5 [.data (Rapid.frame [9])] := by
    simpa [readRun, AgentSlave.Label.env] using henv
  refine ⟨by decide, by decide, rfl, rfl, fun service hservice => ?_⟩
  obtain rfl : service = Rapid.oneService 0 := by
    simpa [Op.services, Op.reqs, oneRead] using hservice
  decide

theorem read_never_reads_oneRead : oneRead.IsRead ∧
    ¬ NoneFinished Rapid.oneClient oneRead 100 0 ∧
    ¬ EachWaits ⟨50, 50, 50⟩ Rapid.oneClient oneRead 100 0 .empty ∧
    ¬ Answers ⟨50, 50, 50⟩ Rapid.oneClient oneRead 100 0 .empty := by
  obtain ⟨hfinished, hwaits, hanswers⟩ := read_never_reads ⟨50, 50, 50⟩ Rapid.oneClient oneRead
    trivial 100 0 .empty
  exact ⟨trivial, hfinished, hwaits, fun h =>
    hanswers h readRun (by decide) readRun_delivered⟩

theorem oneRead_broken : ¬ ∀ (P : Protocols) (conf : ConfNormal) (b : BizProcedure P) (op : Op P),
    op.IsRead → ∀ (timeoMs now : ℤ) (ctxs : EventCtxPool), NoneFinished b op timeoMs now ∧
      EachWaits conf b op timeoMs now ctxs ∧ Answers conf b op timeoMs now ctxs := by
  intro h
  obtain ⟨-, -, hanswers⟩ := h Rapid.protocols ⟨50, 50, 50⟩ Rapid.oneClient oneRead trivial 100 0
    .empty
  obtain ⟨r, hr, hok⟩ := hanswers readRun (by decide) readRun_delivered
  have hret : ((machine Rapid.protocols ⟨50, 50, 50⟩).exec Rapid.oneClient (.call oneRead 100 0 true
      .empty :: (readRun.map .agent ++ [.resume]))).returns.getLast?.map OpReturn.ret =
      some .kBroken := by decide
  rw [hr, Option.map_some, hok] at hret
  cases hret

end BizProcedure

end Magneto
