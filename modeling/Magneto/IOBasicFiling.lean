import Magneto.IOBasicCache
import Magneto.TalkFds
import Magneto.IOBasicOutcome

/-!
# What an operation does with the connections of the service cache

An operation takes the entries of its services out of the cache, and files the
connections of its talks when it is resumed. Two things go wrong: an operation
that returns before it is resumed files nothing, and neither does a talk that
could not be encoded; and of several talks of one service only one is filed.
-/

namespace Magneto

variable {P : Protocols}

def Op.reqs : Op P → List (Service × Option P.Buf)
  | .writes reqs => reqs
  | .reads services => services.map fun service => (service, none)
  | .talks reqs => reqs
  | .write service buf => [(service, some buf)]
  | .read service => [(service, none)]
  | .simpleTalk service buf => [(service, some buf)]
  | .writeBack _ => []

def Op.services (op : Op P) : List Service := op.reqs.map Prod.fst

def Op.nos (op : Op P) : List ℕ := op.reqs.map fun r => r.1.no

def Op.IsSet : Op P → Prop
  | .writes _ => True
  | .reads _ => True
  | .talks _ => True
  | _ => False

theorem Talk.assign_service (pools : PoolProtocols P) (now : ℤ) (args : Talk.Args P) :
    (Talk.assign pools now args).1.service = args.service := by
  have h := Talk.assign_cases pools now args
  generalize Talk.assign pools now args = r at h ⊢
  cases h <;> rfl

namespace ServiceCache

variable {cache : ServiceCache}

theorem getFd_eq (cache : ServiceCache) (service : Service) :
    cache.getFd service = ((cache.entry service.no).elim 0 CachedFd.fd,
      (cache.entry service.no).bind CachedFd.remote,
      KeyedList.erase CachedFd.no cache service.no) := by
  unfold getFd entry
  cases h : KeyedList.get CachedFd.no cache service.no with
  | some e =>
    have hfind : cache.find? (fun e => e.no = service.no) = some e := h
    rw [hfind]
    rfl
  | none =>
    have hfind : cache.find? (fun e => e.no = service.no) = none := h
    rw [hfind, KeyedList.erase_of_get_none h]
    rfl

end ServiceCache

namespace BizProcedure

open ServiceCache

variable {category : Talk.Category} {timeoMs now : ℤ} {cache : ServiceCache}
  {pools : PoolProtocols P}

theorem assignTalks_service (reqs : List (Service × Option P.Buf)) (n : ℕ)
    (cache : ServiceCache) (pools : PoolProtocols P) :
    (assignTalks category timeoMs now reqs n cache pools).1.map Talk.service =
      reqs.map fun r => some r.1 := by
  induction reqs generalizing n cache pools with
  | nil => rfl
  | cons req reqs ih =>
    obtain ⟨service, buf⟩ := req
    simp only [assignTalks, List.map_cons, ih, Talk.followAll_service, Talk.assign_service]

theorem map_no_of_service {talks : List (Talk P)} {op : Op P}
    (h : talks.map Talk.service = op.services.map some) :
    talks.map Talk.no = op.nos.map some := by
  have hno := congrArg (List.map (Option.map Service.no)) h
  rw [List.map_map, List.map_map] at hno
  refine hno.trans ?_
  simp [Op.services, Op.nos]

theorem assignTalks_cache (reqs : List (Service × Option P.Buf)) (n : ℕ)
    (h : KeyedList.Keyed CachedFd.no cache) :
    KeyedList.Keyed CachedFd.no (assignTalks category timeoMs now reqs n cache pools).2.1 ∧
      ∀ no, (assignTalks category timeoMs now reqs n cache pools).2.1.entry no =
        if no ∈ reqs.map fun r => r.1.no then none else cache.entry no := by
  induction reqs generalizing n cache pools with
  | nil => exact ⟨h, fun no => by simp [assignTalks]⟩
  | cons req reqs ih =>
    obtain ⟨service, buf⟩ := req
    simp only [assignTalks, getFd_eq]
    obtain ⟨hk, hentry⟩ := ih (n + 1) (h.erase service.no)
    refine ⟨hk, fun no => (hentry no).trans ?_⟩
    rw [entry, KeyedList.get_erase h]
    simp only [List.map_cons, List.mem_cons]
    by_cases hno : no = service.no
    · simp only [hno, ↓reduceIte, true_or, ite_self]
    · simp only [hno, ↓reduceIte, false_or]

theorem assignTalks_get {reqs : List (Service × Option P.Buf)} {i : ℕ} {service : Service}
    {buf : Option P.Buf} (n : ℕ) (h : KeyedList.Keyed CachedFd.no cache)
    (hi : reqs[i]? = some (service, buf)) :
    ∃ pools' us o, (assignTalks category timeoMs now reqs n cache pools).1[i]? =
        some (Talk.followAll us (Talk.assign pools' now ⟨n + i, category, some service,
          service.protocolCategory, buf, timeoMs, o.elim 0 CachedFd.fd, o.bind CachedFd.remote,
          o.bind CachedFd.peer⟩).1) ∧
      o = if service.no ∈ (reqs.take i).map fun r => r.1.no then none
        else cache.entry service.no := by
  induction reqs generalizing n i cache pools with
  | nil => simp at hi
  | cons req reqs ih =>
    simp only [assignTalks, getFd_eq]
    cases i with
    | zero =>
      obtain rfl := Option.some.inj hi
      exact ⟨pools, _, _, rfl, by simp⟩
    | succ i =>
      obtain ⟨pools', us, o, hget, ho⟩ := ih (n + 1) (h.erase req.1.no) hi
      refine ⟨pools', us, o, ?_, ho.trans ?_⟩
      · rw [show n + (i + 1) = n + 1 + i by omega]
        exact hget
      · rw [entry, KeyedList.get_erase h]
        simp only [List.take_succ_cons, List.map_cons, List.mem_cons]
        by_cases hno : service.no = req.1.no
        · simp only [hno, ↓reduceIte, true_or, ite_self]
        · simp only [hno, ↓reduceIte, false_or]

theorem buildTalks_reqs (b : BizProcedure P) {op : Op P} (hop : ∀ buf, op ≠ .writeBack buf)
    (timeoMs now : ℤ) :
    ∃ category, b.buildTalks op timeoMs now = b.buildServiceTalks category op.reqs timeoMs now := by
  cases op with
  | writeBack buf => exact absurd rfl (hop buf)
  | _ => exact ⟨_, rfl⟩

theorem buildTalks_all {b : BizProcedure P} (hc : b.serviceCache.Sound) (op : Op P)
    (timeoMs now : ℤ) :
    BuiltOp .all b (b.buildTalks op timeoMs now).2 op (b.buildTalks op timeoMs now).1 :=
  buildTalks_built op hc (.inl trivial) (.inl trivial) timeoMs now

theorem buildTalks_service (b : BizProcedure P) {op : Op P} (hop : ∀ buf, op ≠ .writeBack buf)
    (timeoMs now : ℤ) :
    (b.buildTalks op timeoMs now).1.map Talk.service = op.services.map some := by
  obtain ⟨category, heq⟩ := b.buildTalks_reqs hop timeoMs now
  rw [heq]
  exact (assignTalks_service op.reqs 0 b.serviceCache b.pools).trans (by simp [Op.services])

theorem buildTalks_no (b : BizProcedure P) {op : Op P} (hop : ∀ buf, op ≠ .writeBack buf)
    (timeoMs now : ℤ) : (b.buildTalks op timeoMs now).1.map Talk.no = op.nos.map some :=
  map_no_of_service (b.buildTalks_service hop timeoMs now)

theorem buildTalks_cache {b : BizProcedure P} (h : KeyedList.Keyed CachedFd.no b.serviceCache)
    (op : Op P) (timeoMs now : ℤ) :
    KeyedList.Keyed CachedFd.no (b.buildTalks op timeoMs now).2.serviceCache ∧
      ∀ no, (b.buildTalks op timeoMs now).2.serviceCache.entry no =
        if no ∈ op.nos then none else b.serviceCache.entry no := by
  by_cases hop : ∃ buf, op = .writeBack buf
  · obtain ⟨buf, rfl⟩ := hop
    exact ⟨h, fun no => by simp [Op.nos, Op.reqs, buildTalks, buildWriteBack]⟩
  · obtain ⟨category, heq⟩ := b.buildTalks_reqs (fun buf he => hop ⟨buf, he⟩) timeoMs now
    rw [heq]
    exact assignTalks_cache op.reqs 0 h

theorem fileOp_keyed {b : BizProcedure P} (h : KeyedList.Keyed CachedFd.no b.serviceCache)
    (op : Op P) (talks : List (Talk P)) :
    KeyedList.Keyed CachedFd.no (b.fileOp op talks).serviceCache := by
  unfold fileOp
  split
  · split_ifs <;> exact h
  · exact fileTalks_keyed talks h

theorem next_keyed {conf : ConfNormal} {b : BizProcedure P}
    (h : KeyedList.Keyed CachedFd.no b.serviceCache) (l : Label P) :
    KeyedList.Keyed CachedFd.no (next conf b l).serviceCache := by
  cases l with
  | call op timeoMs now accepted ctxs =>
    have hbuilt := (buildTalks_cache h op timeoMs now).1
    simp only [next, call]
    split_ifs <;> exact hbuilt
  | agent l =>
    simp only [next, agentStep]
    split <;> exact h
  | resume =>
    simp only [next, resume]
    split
    · split
      · exact fileOp_keyed h _ _
      · exact h
    · exact h
  | freeTalks => exact h

theorem exec_cacheOk {conf : ConfNormal} (pools : PoolProtocols P) (fdClient : ℤ)
    (protocolRead : Protocol.Category) {ls : List (Label P)}
    (hrun : (machine P conf).Admits (init pools fdClient protocolRead) ls) :
    ((machine P conf).exec (init pools fdClient protocolRead) ls).serviceCache.Ok := by
  have hinv := (machine P conf).invariant
    (I := fun b => b.Inv .all ∧ KeyedList.Keyed CachedFd.no b.serviceCache)
    (fun b l h hl => ⟨inv_next h.1 hl (tolerated_all conf b l), next_keyed h.2 l⟩)
    ⟨inv_init pools fdClient protocolRead, .nil⟩ hrun
  exact ⟨hinv.2, hinv.1.cache⟩

section run

variable {conf : ConfNormal} {b : BizProcedure P} {op : Op P} {ctxs : EventCtxPool}
  {ls : List AgentSlave.Label}

theorem exec_agents {p : Suspended P} (hp : b.waiting = some p) {rest : List (Label P)}
    (hrun : (machine P conf).Admits b (ls.map .agent ++ rest)) :
    (AgentSlave.machine P conf).Admits p.agent ls ∧ ∃ q, q.op = p.op ∧
      q.agent = (AgentSlave.machine P conf).exec p.agent ls ∧
      (machine P conf).exec b (ls.map .agent) = { b with waiting := some q } ∧
      (machine P conf).Admits { b with waiting := some q } rest := by
  induction ls generalizing b p with
  | nil =>
    refine ⟨trivial, p, rfl, rfl, ?_, ?_⟩
    · rw [← hp]
      rfl
    · rw [← hp]
      exact hrun
  | cons l ls ih =>
    obtain ⟨hl, hrest⟩ := hrun
    have hen : AgentEnabled b.serviceCache l b.waiting := hl
    rw [hp] at hen
    have hnext : next conf b (.agent l) = { b with
        waiting := some ⟨p.op, AgentSlave.next conf p.agent l,
          p.everFailed || (AgentSlave.next conf p.agent l).session.hasFailure⟩ } := by
      simp only [next, agentStep, hp]
    change (machine P conf).Admits (next conf b (.agent l)) _ at hrest
    rw [hnext] at hrest
    obtain ⟨hadm, q, hop, hag, hexec, hrest⟩ := ih rfl hrest
    refine ⟨⟨hen.1, hadm⟩, q, hop, hag, ?_, hrest⟩
    show (machine P conf).exec (next conf b (.agent l)) (ls.map .agent) = _
    rw [hnext, hexec]

structure Returned (conf : ConfNormal) (b : BizProcedure P) (op : Op P) (timeoMs now : ℤ)
    (ctxs : EventCtxPool) (ls : List AgentSlave.Label) (b' : BizProcedure P) (s : Session P) :
    Prop where
  admits : (AgentSlave.machine P conf).Admits
    (AgentSlave.start ctxs (b.buildTalks op timeoMs now).1) ls
  session : s = ((AgentSlave.machine P conf).exec
    (AgentSlave.start ctxs (b.buildTalks op timeoMs now).1) ls).session
  inv : s.Inv .all .poll
  cache : b'.serviceCache = ((b.buildTalks op timeoMs now).2.fileOp op s.talks).serviceCache
  returns : b'.returns.getLast?.bind OpReturn.session = some s

theorem not_admits_resume (hw : b.waiting = none) :
    ¬ (machine P conf).Admits b (ls.map .agent ++ [.resume]) := by
  intro hadm
  cases ls with
  | nil =>
    have hl : Replied b.waiting := hadm.1
    rw [hw] at hl
    exact hl
  | cons l ls =>
    have hl : AgentEnabled b.serviceCache l b.waiting := hadm.1
    rw [hw] at hl
    exact hl

theorem call_posted {timeoMs now : ℤ} (hw : (b.buildTalks op timeoMs now).2.waiting = none)
    (hrest : (machine P conf).Admits (b.call op timeoMs now true ctxs)
      (ls.map .agent ++ [.resume])) :
    b.call op timeoMs now true ctxs = { (b.buildTalks op timeoMs now).2 with
      waiting := some ⟨op, AgentSlave.start ctxs (b.buildTalks op timeoMs now).1, false⟩ } := by
  unfold call at hrest ⊢
  dsimp only at hrest ⊢
  split_ifs at hrest ⊢ with henc
  · exact absurd hrest (not_admits_resume hw)
  · rfl
  · exact absurd hrest (not_admits_resume hw)

theorem call_resumed {timeoMs now : ℤ} (hc : b.serviceCache.Sound)
    (hrun : (machine P conf).Admits b
      (.call op timeoMs now true ctxs :: (ls.map .agent ++ [.resume]))) :
    ∃ q e, q.op = op ∧ q.agent = (AgentSlave.machine P conf).exec
        (AgentSlave.start ctxs (b.buildTalks op timeoMs now).1) ls ∧
      (AgentSlave.machine P conf).Admits
        (AgentSlave.start ctxs (b.buildTalks op timeoMs now).1) ls ∧
      q.agent.Inv .all (b.buildTalks op timeoMs now).1 ∧ q.agent.pc = .poll ∧
      q.agent.sentBack = [⟨e, q.agent.session⟩] ∧
      (machine P conf).exec b (.call op timeoMs now true ctxs :: (ls.map .agent ++ [.resume])) =
        resume { (b.buildTalks op timeoMs now).2 with waiting := some q } := by
  obtain ⟨hnone, hrest⟩ := hrun
  have hbuilt := buildTalks_all hc op timeoMs now
  have hwait : (b.buildTalks op timeoMs now).2.waiting = none :=
    hbuilt.waiting.trans (Option.isNone_iff_eq_none.mp hnone)
  have hcall : b.call op timeoMs now true ctxs = _ := call_posted hwait hrest
  change (machine P conf).Admits (b.call op timeoMs now true ctxs) _ at hrest
  rw [hcall] at hrest
  obtain ⟨hadm, q, hop, hag, hexec, hreplied, -⟩ := exec_agents rfl hrest
  have hinv := AgentSlave.inv_exec_all hbuilt.built hadm
  rw [← hag] at hinv
  have hsent : q.agent.sentBack.isEmpty = false := hreplied
  rcases hinv.replied with ⟨hs, -⟩ | ⟨e, hs, hpc, -⟩
  · simp [hs] at hsent
  refine ⟨q, e, hop, hag, hadm, hinv, hpc, hs, ?_⟩
  show (machine P conf).exec (b.call op timeoMs now true ctxs) (ls.map .agent ++ [.resume]) = _
  rw [hcall, Machine.exec_append, hexec]
  rfl

theorem call_returned {timeoMs now : ℤ} (hc : b.serviceCache.Sound)
    (hrun : (machine P conf).Admits b
      (.call op timeoMs now true ctxs :: (ls.map .agent ++ [.resume]))) :
    ∃ s, Returned conf b op timeoMs now ctxs ls ((machine P conf).exec b
      (.call op timeoMs now true ctxs :: (ls.map .agent ++ [.resume]))) s := by
  obtain ⟨q, e, hop, hag, hadm, hinv, hpc, hs, hresume⟩ := call_resumed hc hrun
  rw [hresume]
  refine ⟨q.agent.session, hadm, by rw [hag], hpc ▸ hinv.session, ?_, ?_⟩
  · simp only [resume, hs, hop, fileOp]
    split
    · split_ifs <;> rfl
    · rfl
  · simp [resume, hs]

theorem Returned.filed {timeoMs now : ℤ} {b' : BizProcedure P} {s : Session P}
    (h : Returned conf b op timeoMs now ctxs ls b' s) (hop : ∀ buf, op ≠ .writeBack buf) :
    b'.serviceCache = (b.buildTalks op timeoMs now).2.serviceCache.fileTalks s.talks := by
  refine h.cache.trans ?_
  cases op with
  | writeBack buf => exact absurd rfl (hop buf)
  | _ => rfl

theorem Returned.tracked {timeoMs now : ℤ} {b' : BizProcedure P} {s : Session P}
    (h : Returned conf b op timeoMs now ctxs ls b' s)
    (hb : Built (b.buildTalks op timeoMs now).1) :
    s.talks.length = (b.buildTalks op timeoMs now).1.length ∧
      ∃ cs : List (Solo P), s.closed.Perm (cs.flatMap (·.log.closed)) ∧
        s.talks = cs.map Solo.talk ∧
        ∀ (i : ℕ) (t : Talk P), (b.buildTalks op timeoMs now).1[i]? = some t →
          ∃ c, cs[i]? = some c ∧
            t.Tracked (ls.filterMap AgentSlave.Label.env) c.talk c.log.closed := by
  obtain ⟨hshows, -⟩ := AgentSlave.shows_solos conf ctxs hb h.admits
  rw [← h.session] at hshows
  refine ⟨by rw [hshows.talks]; simp [AgentSlave.solos], _, hshows.closed, hshows.talks, ?_⟩
  intro i t ht
  exact AgentSlave.solos_tracked hb h.admits ht

theorem Returned.service_eq {timeoMs now : ℤ} {b' : BizProcedure P} {s : Session P}
    (h : Returned conf b op timeoMs now ctxs ls b' s)
    (hb : Built (b.buildTalks op timeoMs now).1) (hop : ∀ buf, op ≠ .writeBack buf) :
    s.talks.map Talk.service = op.services.map some := by
  obtain ⟨hlen, cs, -, htalks, hcs⟩ := h.tracked hb
  rw [← b.buildTalks_service hop timeoMs now]
  apply List.ext_getElem?
  intro i
  rw [List.getElem?_map, List.getElem?_map]
  cases ht : (b.buildTalks op timeoMs now).1[i]? with
  | none =>
    rw [List.getElem?_eq_none (hlen ▸ List.getElem?_eq_none_iff.mp ht)]
  | some t =>
    obtain ⟨c, hc, htr⟩ := hcs i t ht
    rw [htalks, List.getElem?_map, hc]
    exact congrArg some htr.service

theorem Returned.no_eq {timeoMs now : ℤ} {b' : BizProcedure P} {s : Session P}
    (h : Returned conf b op timeoMs now ctxs ls b' s)
    (hb : Built (b.buildTalks op timeoMs now).1) (hop : ∀ buf, op ≠ .writeBack buf) :
    s.talks.map Talk.no = op.nos.map some :=
  map_no_of_service (h.service_eq hb hop)

end run

/-- A set call keeps the connection of every talk that ended with one, under the talk's
service, exactly when no such talk is followed by a talk of the same service. Filing
neither closes a descriptor nor hands one to an agent. -/
theorem setCall_keeps_iff {conf : ConfNormal} {b : BizProcedure P} (hc : b.serviceCache.Ok)
    {op : Op P} (hop : op.IsSet) {timeoMs now : ℤ} {ctxs : EventCtxPool}
    {ls : List AgentSlave.Label} (hrun : (machine P conf).Admits b
      (.call op timeoMs now true ctxs :: (ls.map .agent ++ [.resume]))) :
    let b' := (machine P conf).exec b
      (.call op timeoMs now true ctxs :: (ls.map .agent ++ [.resume]))
    ∃ s, b'.returns.getLast?.bind OpReturn.session = some s ∧
      ((∀ t ∈ s.talks, 0 < t.fd → b'.serviceCache.Keeps t) ↔ Unrepeated s.talks) := by
  intro b'
  have hback : ∀ buf, op ≠ .writeBack buf := by
    rintro buf rfl
    exact hop
  have hbuilt := buildTalks_all hc.sound op timeoMs now
  obtain ⟨s, hret⟩ := call_returned hc.sound hrun
  obtain ⟨hkeyed, hentry⟩ := buildTalks_cache hc.keyed op timeoMs now
  refine ⟨s, hret.returns, ?_⟩
  rw [hret.filed hback]
  refine fileTalks_keeps_iff hkeyed (fun t ht => ?_) hret.inv.pairwise_fd
  have hno : t.no ∈ op.nos.map some := by
    rw [← hret.no_eq hbuilt.built hback]
    exact List.mem_map_of_mem ht
  obtain ⟨no, hmem, heq⟩ := List.mem_map.mp hno
  exact ⟨no, heq.symm, (hentry no).trans (if_pos hmem)⟩

/-- A request is written to each service of a set, over a new connection for each. -/
def writesRun (services : List Service) (fds : List ℤ) : List (Label Rapid.protocols) :=
  .call (.writes (services.map fun service => (service, some Rapid.oneRequest))) 100 0 true
      .empty ::
    ((fds.map (fun fd => AgentSlave.Label.reset (Rapid.connected fd [])) ++
      fds.map (fun fd => AgentSlave.Label.ready fd .kOut (Rapid.connected fd []))).map .agent ++
      [.resume])

theorem setCall_keeps_iff_oneService :
    let b' := (machine Rapid.protocols ⟨50, 50, 50⟩).exec Rapid.oneClient
      (writesRun [Rapid.oneService 0] [5])
    b'.serviceCache.fds = [5] ∧ ∃ s, b'.returns.getLast?.bind OpReturn.session = some s ∧
      ((∀ t ∈ s.talks, 0 < t.fd → b'.serviceCache.Keeps t) ↔ Unrepeated s.talks) := by
  have hc : Rapid.oneClient.serviceCache.Ok :=
    ⟨.nil, .nil, by simp [Rapid.oneClient, init, fds]⟩
  have hop : Op.IsSet (.writes [(Rapid.oneService 0, some Rapid.oneRequest)]) := trivial
  have hrun : (machine Rapid.protocols ⟨50, 50, 50⟩).Admits Rapid.oneClient
      (writesRun [Rapid.oneService 0] [5]) := by decide
  exact ⟨by decide, setCall_keeps_iff hc hop hrun⟩

theorem repeatedService_dropped :
    ¬ ∀ (P : Protocols) (conf : ConfNormal) (b : BizProcedure P), b.serviceCache.Ok →
      ∀ op : Op P, op.IsSet → ∀ (timeoMs now : ℤ) (ctxs : EventCtxPool)
      (ls : List AgentSlave.Label), (machine P conf).Admits b
        (.call op timeoMs now true ctxs :: (ls.map .agent ++ [.resume])) →
      let b' := (machine P conf).exec b
        (.call op timeoMs now true ctxs :: (ls.map .agent ++ [.resume]))
      ∃ s, b'.returns.getLast?.bind OpReturn.session = some s ∧
        ∀ t ∈ s.talks, 0 < t.fd → b'.serviceCache.Keeps t := by
  intro h
  have hc : Rapid.oneClient.serviceCache.Ok :=
    ⟨.nil, .nil, by simp [Rapid.oneClient, init, fds]⟩
  obtain ⟨s, hs, hkeep⟩ := h _ ⟨50, 50, 50⟩ Rapid.oneClient hc (.writes
    [(Rapid.oneService 0, some Rapid.oneRequest), (Rapid.oneService 0, some Rapid.oneRequest)])
    trivial 100 0 .empty _ (show (machine Rapid.protocols ⟨50, 50, 50⟩).Admits Rapid.oneClient
      (writesRun [Rapid.oneService 0, Rapid.oneService 0] [5, 6]) by decide)
  set b' := (machine Rapid.protocols ⟨50, 50, 50⟩).exec Rapid.oneClient
    (writesRun [Rapid.oneService 0, Rapid.oneService 0] [5, 6]) with hb'
  have hlost : (b'.returns.getLast?.bind OpReturn.session).map
      (fun s => decide (∀ t ∈ s.talks, 0 < t.fd → b'.serviceCache.Keeps t)) = some false := by
    decide
  rw [show b'.returns.getLast?.bind OpReturn.session = some s from hs] at hlost
  simp only [Option.map_some, Option.some.injEq, decide_eq_false_iff_not] at hlost
  exact hlost hkeep

end BizProcedure

end Magneto
