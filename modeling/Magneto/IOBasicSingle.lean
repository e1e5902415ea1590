import Magneto.IOBasicFiling
import Magneto.IOBasicPools

/-!
# Single calls and set calls

`SimpleTalk` and `Talks` on a set of one service are two copies of one algorithm:
they build the same talk, post the same session and file its connection in the
same way. They differ in one place. `SimpleTalk` returns when its talk does not
encode; `Talks` posts the session all the same, and the slave answers it as
broken, with the error of the talk in `responses`.
-/

namespace Magneto

variable {P : Protocols}

/-- The `responses` of `Talks`, which are filled when the call is resumed. -/
def OpReturn.responses (r : OpReturn P) : List (ErrorNo × Option (ReaderObj P)) :=
  (r.session.elim [] Session.talks).map fun t => (t.error, t.protocolRead)

def OpReturn.protocolRead (r : OpReturn P) : Option (ReaderObj P) :=
  (r.session.bind fun s => s.talks.head?).bind Talk.protocolRead

namespace AgentSlave

variable {conf : ConfNormal} {ctxs : EventCtxPool} {t : Talk P}

/-- A session whose only talk did not encode is answered in the first iteration. -/
theorem exec_unencoded (hfd : t.fd = -1) (he : t.error = .kEncode) (hs : t.status ≠ .kEnd)
    (hn : t.noTalk = 0) {ls : List Label}
    (hrun : (machine P conf).Admits (start ctxs [t]) ls) :
    let a := (machine P conf).exec (start ctxs [t]) ls
    a = start ctxs [t] ∨ a.pc = .poll ∧ (∀ fd, a.session.driver fd = none) ∧
      a.session.talks = [{ t with counted := true }] ∧ .invalidFd ∈ a.session.bugs ∧
      a.sentBack.map Reply.error = [.kBroken] := by
  refine (machine P conf).invariant (I := fun a => a = start ctxs [t] ∨ a.pc = .poll ∧
    (∀ fd, a.session.driver fd = none) ∧ a.session.talks = [{ t with counted := true }] ∧
      .invalidFd ∈ a.session.bugs ∧ a.sentBack.map Reply.error = [.kBroken]) ?_ (.inl rfl) hrun
  rintro a l (rfl | ⟨hpc, hnone, -⟩) hl
  · have hpc : (start ctxs [t]).pc = .reset 0 := rfl
    change Enabled (start ctxs [t]) l at hl
    cases l with
    | reset env =>
      right
      simp [machine, next, start, endReset, Session.resetOne, Session.resetTalk, hs, hfd, he, hn,
        Session.setTalk, Session.fail, Session.bug, sendBackMsg, EventsDriver.empty]
    | ready fd event env => simp [Enabled, hpc] at hl
    | removeTimeouts fds => simp [Enabled, hpc] at hl
    | cleanTimeout env => simp [Enabled, hpc, Pc.cleaning, FreshFor] at hl
  · exact absurd hl (not_enabled_of_quiet hpc hnone l)

end AgentSlave

namespace BizProcedure

variable {conf : ConfNormal} {b b' : BizProcedure P} {op : Op P} {timeoMs now : ℤ}
  {accepted : Bool} {ctxs : EventCtxPool} {ls : List AgentSlave.Label} {service : Service}
  {buf : P.Buf}

/-- The operation, up to its return: at once, or when the steps `ls` of the slave have ended in a
reply. The mailbox's answer, the clock and `ls` are what the others do meanwhile. -/
inductive Completes (conf : ConfNormal) (b : BizProcedure P) (op : Op P) (timeoMs now : ℤ)
    (accepted : Bool) (ctxs : EventCtxPool) (ls : List AgentSlave.Label) : BizProcedure P → Prop
  | atOnce (h : (b.call op timeoMs now accepted ctxs).waiting = none) :
      Completes conf b op timeoMs now accepted ctxs ls (b.call op timeoMs now accepted ctxs)
  | resumed (h : (machine P conf).Admits b
        (.call op timeoMs now accepted ctxs :: (ls.map .agent ++ [.resume]))) :
      Completes conf b op timeoMs now accepted ctxs ls ((machine P conf).exec b
        (.call op timeoMs now accepted ctxs :: (ls.map .agent ++ [.resume])))

def Agree (b bs bt : BizProcedure P) : Prop :=
  ∃ r r', bs.returns = b.returns ++ [r] ∧ bt.returns = b.returns ++ [r'] ∧ r.ret = r'.ret ∧
    bs.serviceCache = bt.serviceCache ∧
    (r.ret = .kOk → r'.responses[0]? = some (.kOk, r.protocolRead))

def EncodesFor (b : BizProcedure P) (service : Service) (buf : P.Buf) : Prop :=
  (Talk.encodeWriter (b.pools.getWrite service.protocolCategory).1 buf).1 = true

instance (b : BizProcedure P) (service : Service) (buf : P.Buf) :
    Decidable (b.EncodesFor service buf) := inferInstanceAs (Decidable (_ = true))

theorem buildTalks_one (b : BizProcedure P) (service : Service) (buf : P.Buf) (timeoMs now : ℤ) :
    ∃ t, (b.buildTalks (.talks [(service, some buf)]) timeoMs now).1 = [t] ∧ t.noTalk = 0 ∧
      t.service = some service ∧ t.buf = some buf ∧
      (b.EncodesFor service buf → t.error = .kOk) ∧
      (¬ b.EncodesFor service buf →
        t.error = .kEncode ∧ t.fd = -1 ∧ t.status ≠ .kEnd ∧ t.protocolRead = none) := by
  refine ⟨_, rfl, Talk.assign_noTalk _ _ _, Talk.assign_service _ _ _, Talk.assign_buf _ _ _, ?_⟩
  rw [EncodesFor]
  generalize hargs : Talk.Args.mk 0 Talk.Category.kWriteAndRead (some service)
    service.protocolCategory (some buf) timeoMs (b.serviceCache.getFd service).1
    (b.serviceCache.getFd service).2.1 (b.serviceCache.peer service) = args
  have hcase := Talk.assign_cases b.pools now args
  subst hargs
  generalize Talk.assign b.pools now _ = r at hcase ⊢
  cases hcase with
  | skipped hb => cases hb
  | readOnly buf q hb hc => cases hc
  | writeOnly buf w hb hc => cases hc
  | unencoded buf w hb hc he =>
    obtain rfl := Option.some.inj hb
    rw [he]
    exact ⟨by simp, fun _ => ⟨rfl, rfl, nofun, rfl⟩⟩
  | writeAndRead buf w q hb hc he =>
    obtain rfl := Option.some.inj hb
    rw [he]
    exact ⟨fun _ => rfl, by simp⟩

def Passes (b : BizProcedure P) (op : Op P) (timeoMs now : ℤ) : Prop :=
  ¬ (checksEncode op ∧ headError (b.buildTalks op timeoMs now).1 ≠ .kOk)

theorem Passes.call_eq (h : b.Passes op timeoMs now) (accepted : Bool) (ctxs : EventCtxPool) :
    b.call op timeoMs now accepted ctxs =
      if accepted then { (b.buildTalks op timeoMs now).2 with
        waiting := some ⟨op, AgentSlave.start ctxs (b.buildTalks op timeoMs now).1, false⟩ }
      else (b.buildTalks op timeoMs now).2.returnAtOnce op .kQueueBusy := by
  unfold call
  dsimp only
  rw [if_neg h]

theorem Completes.cases (h : Completes conf b op timeoMs now accepted ctxs ls b')
    (hw : (b.buildTalks op timeoMs now).2.waiting = b.waiting) (hpass : b.Passes op timeoMs now) :
    b.waiting = none ∧
    (accepted = false ∧ b' = (b.buildTalks op timeoMs now).2.returnAtOnce op .kQueueBusy ∨
    accepted = true ∧ (machine P conf).Admits b
        (.call op timeoMs now true ctxs :: (ls.map .agent ++ [.resume])) ∧
      b' = (machine P conf).exec b
        (.call op timeoMs now true ctxs :: (ls.map .agent ++ [.resume]))) := by
  have hcall := hpass.call_eq accepted ctxs
  cases h with
  | atOnce h =>
    rw [hcall] at h ⊢
    cases accepted with
    | false => exact ⟨hw.symm.trans h, .inl ⟨rfl, rfl⟩⟩
    | true => cases h
  | resumed h =>
    have hnone : b.waiting = none := Option.isNone_iff_eq_none.mp h.1
    refine ⟨hnone, ?_⟩
    cases accepted with
    | false =>
      have hrest : (machine P conf).Admits (b.call op timeoMs now false ctxs) _ := h.2
      rw [hcall] at hrest
      exact absurd hrest (not_admits_resume (hw.trans hnone))
    | true => exact .inr ⟨rfl, h, rfl⟩

theorem Completes.unencoded (h : Completes conf b op timeoMs now accepted ctxs ls b')
    (hw : (b.buildTalks op timeoMs now).2.waiting = b.waiting)
    (hfail : checksEncode op ∧ headError (b.buildTalks op timeoMs now).1 ≠ .kOk) :
    b' = (b.buildTalks op timeoMs now).2.returnAtOnce op
      (headError (b.buildTalks op timeoMs now).1) := by
  have hcall : b.call op timeoMs now accepted ctxs =
      (b.buildTalks op timeoMs now).2.returnAtOnce op
        (headError (b.buildTalks op timeoMs now).1) := by
    unfold call
    dsimp only
    rw [if_pos hfail]
  cases h with
  | atOnce h => exact hcall
  | resumed h =>
    have hrest : (machine P conf).Admits (b.call op timeoMs now accepted ctxs) _ := h.2
    rw [hcall] at hrest
    exact absurd hrest (not_admits_resume (hw.trans (Option.isNone_iff_eq_none.mp h.1)))

theorem admits_agents_congr (op op' : Op P) {a : AgentSlave P} {f f' : Bool}
    (h : (machine P conf).Admits { b with waiting := some ⟨op, a, f⟩ }
      (ls.map .agent ++ [.resume])) :
    (machine P conf).Admits { b with waiting := some ⟨op', a, f'⟩ }
      (ls.map .agent ++ [.resume]) := by
  induction ls generalizing a f f' with
  | nil => exact ⟨h.1, trivial⟩
  | cons l ls ih => exact ⟨h.1, ih h.2⟩

theorem call_reply (hc : b.serviceCache.Sound) (hrun : (machine P conf).Admits b
      (.call op timeoMs now true ctxs :: (ls.map .agent ++ [.resume]))) :
    let a := (AgentSlave.machine P conf).exec
      (AgentSlave.start ctxs (b.buildTalks op timeoMs now).1) ls
    ∃ e f, a.Inv .all (b.buildTalks op timeoMs now).1 ∧ a.sentBack = [⟨e, a.session⟩] ∧
      ((machine P conf).exec b
        (.call op timeoMs now true ctxs :: (ls.map .agent ++ [.resume]))).returns =
          b.returns ++ [⟨op, e, some a.session, f⟩] := by
  intro a
  obtain ⟨q, e, hop, hag, -, hinv, -, hs, hresume⟩ := call_resumed hc hrun
  have hq : q.agent = a := hag
  rw [← hq]
  refine ⟨e, q.everFailed, hinv, hs, ?_⟩
  rw [hresume]
  simp only [resume, hs, hop, fileOp_returns]
  rw [(buildTalks_all hc op timeoMs now).returns]

theorem Completes.congr {op' : Op P} (h : Completes conf b op timeoMs now accepted ctxs ls b')
    (hw : (b.buildTalks op timeoMs now).2.waiting = b.waiting)
    (hbuild : b.buildTalks op' timeoMs now = b.buildTalks op timeoMs now)
    (hpass : b.Passes op timeoMs now) (hpass' : b.Passes op' timeoMs now) :
    ∃ b'', Completes conf b op' timeoMs now accepted ctxs ls b'' := by
  have hcall' := hpass'.call_eq accepted ctxs
  rw [hbuild] at hcall'
  obtain ⟨hnone, ⟨rfl, -⟩ | ⟨rfl, hrun, -⟩⟩ := h.cases hw hpass
  · refine ⟨_, .atOnce ?_⟩
    rw [hcall']
    exact hw.trans hnone
  · refine ⟨_, .resumed ⟨hrun.1, ?_⟩⟩
    have hrest : (machine P conf).Admits (b.call op timeoMs now true ctxs) _ := hrun.2
    show (machine P conf).Admits (b.call op' timeoMs now true ctxs) _
    rw [hpass.call_eq] at hrest
    rw [hcall']
    exact admits_agents_congr op op' hrest

theorem passes_talks (b : BizProcedure P) (reqs : List (Service × Option P.Buf))
    (timeoMs now : ℤ) : b.Passes (.talks reqs) timeoMs now := by
  simp [Passes, checksEncode]

theorem passes_simpleTalk_iff (b : BizProcedure P) (service : Service) (buf : P.Buf)
    (timeoMs now : ℤ) :
    b.Passes (.simpleTalk service buf) timeoMs now ↔ b.EncodesFor service buf := by
  obtain ⟨t, hone, -, -, -, hok, hfail⟩ := buildTalks_one b service buf timeoMs now
  have hhead : headError (b.buildTalks (.simpleTalk service buf) timeoMs now).1 = t.error := by
    show headError (b.buildTalks (.talks [(service, some buf)]) timeoMs now).1 = _
    rw [hone]
    rfl
  rw [Passes, hhead]
  by_cases henc : b.EncodesFor service buf
  · simp [henc, hok henc]
  · simp [henc, (hfail henc).1, checksEncode]

theorem one_talk_of_kOk (hc : b.serviceCache.Sound) {s : Session P}
    (hret : Returned conf b (.talks [(service, some buf)]) timeoMs now ctxs ls b' s)
    {a : AgentSlave P} (ha : a.session = s)
    (hinv : a.Inv .all (b.buildTalks (.talks [(service, some buf)]) timeoMs now).1)
    (hsent : a.sentBack = [⟨.kOk, a.session⟩]) : ∃ u, s.talks = [u] ∧ u.error = .kOk := by
  obtain ⟨t, hone, -, -, hbuf, -⟩ := buildTalks_one b service buf timeoMs now
  obtain ⟨hlen, -⟩ := hret.tracked (buildTalks_all hc _ timeoMs now).built
  rw [hone] at hlen hinv
  obtain ⟨u, hu⟩ := List.length_eq_one_iff.mp hlen
  have hmem : u ∈ a.session.talks := by
    rw [ha, hu]
    exact List.mem_singleton_self u
  obtain ⟨t₀, ht₀, -, hmoves⟩ := hinv.descends u hmem
  rw [List.mem_singleton.mp ht₀] at hmoves
  refine ⟨u, hu, (hinv.kOk_succeeded hsent hmem ?_).error⟩
  rw [hmoves.buf_eq, hbuf]
  rfl

theorem agree_of_encodes (hc : b.serviceCache.Ok) (henc : b.EncodesFor service buf)
    {bs bt : BizProcedure P}
    (hs : Completes conf b (.simpleTalk service buf) timeoMs now accepted ctxs ls bs)
    (ht : Completes conf b (.talks [(service, some buf)]) timeoMs now accepted ctxs ls bt) :
    Agree b bs bt := by
  have hpass := (passes_simpleTalk_iff b service buf timeoMs now).mpr henc
  obtain ⟨-, ⟨rfl, rfl⟩ | ⟨rfl, hruns, rfl⟩⟩ := hs.cases rfl hpass
  · obtain ⟨-, ⟨-, rfl⟩ | ⟨hacc, -⟩⟩ := ht.cases rfl (passes_talks b _ timeoMs now)
    · exact ⟨_, _, rfl, rfl, rfl, rfl, fun h => by cases h⟩
    · cases hacc
  obtain ⟨-, ⟨hacc, -⟩ | ⟨-, hrunt, rfl⟩⟩ := ht.cases rfl (passes_talks b _ timeoMs now)
  · cases hacc
  obtain ⟨s, hret⟩ := call_returned hc.sound hruns
  obtain ⟨s', hret'⟩ := call_returned hc.sound hrunt
  obtain rfl : s = s' := hret.session.trans hret'.session.symm
  obtain ⟨e, f, -, hsent, hrets⟩ := call_reply hc.sound hruns
  obtain ⟨e', f', hinv, hsent', hrett⟩ := call_reply hc.sound hrunt
  obtain rfl : e = e' := by
    have hreply := (List.cons.inj (hsent.symm.trans hsent')).1
    exact congrArg Reply.error hreply
  refine ⟨_, _, hrets, hrett, rfl, ?_, fun hok => ?_⟩
  · rw [hret.filed (by simp), hret'.filed (by simp)]
    rfl
  · obtain rfl : e = .kOk := hok
    obtain ⟨u, hu, herror⟩ := one_talk_of_kOk hc.sound hret' hret'.session.symm hinv hsent'
    rw [← hret.session, ← hret'.session]
    simp [OpReturn.responses, OpReturn.protocolRead, hu, herror]

theorem fileTalks_unencoded (hc : b.serviceCache.Ok) (timeoMs now : ℤ) {t : Talk P}
    (hservice : t.service = some service) (hfd : t.fd = -1) :
    (b.buildTalks (.talks [(service, some buf)]) timeoMs now).2.serviceCache.fileTalks
        [{ t with counted := true }] =
      (b.buildTalks (.talks [(service, some buf)]) timeoMs now).2.serviceCache := by
  have hentry := (buildTalks_cache hc.keyed (.talks [(service, some buf)]) timeoMs now).2 service.no
  rw [if_pos (by simp [Op.nos, Op.reqs])] at hentry
  generalize (b.buildTalks (.talks [(service, some buf)]) timeoMs now).2.serviceCache = cache
    at hentry ⊢
  have hfile : cache.fileTalks [{ t with counted := true }] = cache.invalidFd service.no := by
    simp [ServiceCache.fileTalks, ServiceCache.fileTalk, hservice, hfd]
  rw [hfile, ServiceCache.invalidFd_eq]
  exact KeyedList.erase_of_get_none hentry

theorem not_encodes_returns (hc : b.serviceCache.Ok) (henc : ¬ b.EncodesFor service buf)
    {bs bt : BizProcedure P}
    (hs : Completes conf b (.simpleTalk service buf) timeoMs now accepted ctxs ls bs)
    (ht : Completes conf b (.talks [(service, some buf)]) timeoMs now accepted ctxs ls bt) :
    ∃ r r', bs.returns = b.returns ++ [r] ∧ bt.returns = b.returns ++ [r'] ∧ r.ret = .kEncode ∧
      bs.serviceCache = bt.serviceCache ∧
      (accepted = false → r'.ret = .kQueueBusy) ∧
      (accepted = true → r'.ret = .kBroken ∧ r'.responses = [(.kEncode, none)] ∧
        ∃ s ∈ r'.session, .invalidFd ∈ s.bugs) := by
  obtain ⟨t, hone, hn, hservice, -, -, hfail⟩ := buildTalks_one b service buf timeoMs now
  obtain ⟨herror, hfd, hstatus, hread⟩ := hfail henc
  have hhead : headError (b.buildTalks (.simpleTalk service buf) timeoMs now).1 = .kEncode := by
    show headError (b.buildTalks (.talks [(service, some buf)]) timeoMs now).1 = _
    rw [hone]
    exact herror
  obtain rfl := hs.unencoded rfl ⟨rfl, by rw [hhead]; decide⟩
  obtain ⟨-, ⟨rfl, rfl⟩ | ⟨rfl, hrunt, rfl⟩⟩ := ht.cases rfl (passes_talks b _ timeoMs now)
  · exact ⟨_, _, rfl, rfl, hhead, rfl, fun _ => rfl, fun h => by cases h⟩
  obtain ⟨s, hret⟩ := call_returned hc.sound hrunt
  obtain ⟨e, f, -, hsent, hrett⟩ := call_reply hc.sound hrunt
  have hadm := hret.admits
  rw [hone] at hadm hsent hrett
  rcases AgentSlave.exec_unencoded hfd herror hstatus hn hadm with heq |
    ⟨-, -, htalks, hbug, hbroken⟩
  · rw [heq] at hsent
    cases hsent
  have he : e = .kBroken := by
    rw [hsent] at hbroken
    exact (List.cons.inj hbroken).1
  refine ⟨_, _, rfl, hrett, hhead, ?_, fun h => (by cases h), fun _ => ⟨he, ?_, _, rfl, hbug⟩⟩
  · rw [hret.filed (by simp), hret.session, hone, htalks]
    exact (fileTalks_unencoded hc timeoMs now hservice hfd).symm
  · rw [OpReturn.responses]
    simp [htalks, herror, hread]

/-- `Talks` on a set of one service does what `SimpleTalk` does exactly when the buffer encodes:
the one then returns when the other does, with the same code, the same service cache and, for
`kOk`, the same reader. A buffer that does not encode is posted by `Talks`, and the slave finds
the descriptor that `ResetTalk_` asserts not to get. -/
theorem simpleTalk_talks_agree (conf : ConfNormal) {b : BizProcedure P} (hc : b.serviceCache.Ok)
    (service : Service) (buf : P.Buf) (timeoMs now : ℤ) (accepted : Bool) (ctxs : EventCtxPool)
    (ls : List AgentSlave.Label) :
    let single := Completes conf b (.simpleTalk service buf) timeoMs now accepted ctxs ls
    let set := Completes conf b (.talks [(service, some buf)]) timeoMs now accepted ctxs ls
    (b.EncodesFor service buf → ((∃ bs, single bs) ↔ ∃ bt, set bt)) ∧
      ∀ bs bt, single bs → set bt → (Agree b bs bt ↔ b.EncodesFor service buf) ∧
        (¬ b.EncodesFor service buf → accepted = true →
          ∃ r', bt.returns = b.returns ++ [r'] ∧ ∃ s ∈ r'.session, .invalidFd ∈ s.bugs) := by
  intro single set
  refine ⟨fun henc => ⟨?_, ?_⟩, fun bs bt hs ht => ⟨⟨?_, ?_⟩, fun henc hacc => ?_⟩⟩
  · rintro ⟨bs, hs⟩
    exact hs.congr rfl rfl ((passes_simpleTalk_iff b service buf timeoMs now).mpr henc)
      (passes_talks b _ timeoMs now)
  · rintro ⟨bt, ht⟩
    exact ht.congr rfl rfl (passes_talks b _ timeoMs now)
      ((passes_simpleTalk_iff b service buf timeoMs now).mpr henc)
  · rintro ⟨r, r', hr, hr', hret, -⟩
    by_contra henc
    obtain ⟨q, q', hq, hq', hencode, -, hbusy, hbroken⟩ := not_encodes_returns hc henc hs ht
    obtain rfl : r = q := by simpa using hr.symm.trans hq
    obtain rfl : r' = q' := by simpa using hr'.symm.trans hq'
    rw [hencode] at hret
    cases accepted with
    | false => exact absurd (hret.trans (hbusy rfl)) (by decide)
    | true => exact absurd (hret.trans (hbroken rfl).1) (by decide)
  · intro henc
    exact agree_of_encodes hc henc hs ht
  · obtain ⟨-, r', -, hr', -, -, -, hbroken⟩ := not_encodes_returns hc henc hs ht
    exact ⟨r', hr', (hbroken hacc).2.2⟩

theorem simpleTalk_talks_agree_oneTalk :
    ∃ bs bt, Agree Rapid.oneClient bs bt ∧ bs.returns.map OpReturn.ret = [.kOk] := by
  have hc : Rapid.oneClient.serviceCache.Ok :=
    ⟨.nil, .nil, by simp [Rapid.oneClient, init, ServiceCache.fds]⟩
  have h := (simpleTalk_talks_agree ⟨50, 50, 50⟩ hc (Rapid.oneService 0) Rapid.oneRequest 100 0 true
    .empty AgentSlave.oneTalkRun).2 _ _ (.resumed (by decide)) (.resumed (by decide))
  exact ⟨_, _, h.1.mpr (by decide), by decide⟩

theorem unencoded_disagree :
    ¬ ∀ (P : Protocols) (conf : ConfNormal) (b : BizProcedure P), b.serviceCache.Ok →
      ∀ (service : Service) (buf : P.Buf) (timeoMs now : ℤ) (accepted : Bool)
      (ctxs : EventCtxPool) (ls : List AgentSlave.Label) (bs bt : BizProcedure P),
      Completes conf b (.simpleTalk service buf) timeoMs now accepted ctxs ls bs →
      Completes conf b (.talks [(service, some buf)]) timeoMs now accepted ctxs ls bt →
        Agree b bs bt := by
  intro h
  have hencode : ((init Redis.emptyPools 4 .kRedis).call
      (.simpleTalk Redis.cacheService ⟨[], [0]⟩) 100 0 true .empty).returns.map OpReturn.ret =
        [.kEncode] := by decide
  have hbroken : ((machine Redis.protocols ⟨50, 50, 50⟩).exec (init Redis.emptyPools 4 .kRedis)
      (.call (.talks [(Redis.cacheService, some ⟨[], [0]⟩)]) 100 0 true .empty ::
        ([.reset (Rapid.connected 5 [])].map .agent ++ [.resume]))).returns.map OpReturn.ret =
        [.kBroken] := by decide
  obtain ⟨r, r', hr, hr', hret, -⟩ := h Redis.protocols ⟨50, 50, 50⟩
    (init Redis.emptyPools 4 .kRedis) ⟨.nil, .nil, by simp [init, ServiceCache.fds]⟩
    Redis.cacheService ⟨[], [0]⟩ 100 0 true .empty [.reset (Rapid.connected 5 [])] _ _
    (.atOnce (by decide)) (.resumed (by decide))
  rw [hr] at hencode
  rw [hr'] at hbroken
  have hboth := (List.cons.inj hencode).1.symm.trans (hret.trans (List.cons.inj hbroken).1)
  cases hboth

end BizProcedure

end Magneto
