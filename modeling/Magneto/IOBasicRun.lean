import Magneto.IOBasic
import Magneto.TalkReplay
import Magneto.Lib.ListSet

/-!
# Runs of a biz procedure

The descriptors in the service cache are distinct, so that every vector of talks
an operation builds starts a session of the agent slave; what holds in the runs
of the slave then holds of every session the procedure waits for.
-/

namespace Magneto

variable {P : Protocols} {A : Tolerance}

namespace Talk

theorem assign_fd (pools : PoolProtocols P) (now : ℤ) (args : Args P) :
    (assign pools now args).1.fd = args.fd ∨ (assign pools now args).1.fd = -1 := by
  have h := assign_cases pools now args
  generalize assign pools now args = r at h ⊢
  cases h with
  | unencoded => exact .inr rfl
  | _ => exact .inl rfl

theorem assign_noTalk (pools : PoolProtocols P) (now : ℤ) (args : Args P) :
    (assign pools now args).1.noTalk = args.noTalk := by
  have h := assign_cases pools now args
  generalize assign pools now args = r at h ⊢
  cases h <;> rfl

end Talk

namespace ServiceCache

variable {cache : ServiceCache} {service : Service}

theorem getFd_cases (cache : ServiceCache) (service : Service) :
    cache.getFd service = (0, none, cache) ∨
      ∃ e ∈ cache, cache.getFd service =
        (e.fd, e.remote, cache.eraseP (fun e => e.no = service.no)) ∧
        List.Perm cache (e :: cache.eraseP (fun e => e.no = service.no)) := by
  unfold getFd
  cases h : cache.find? (fun e => e.no = service.no) with
  | none => exact .inl rfl
  | some e =>
    exact .inr ⟨e, List.mem_of_find?_eq_some h, rfl, List.perm_cons_eraseP_of_find? h⟩

structure Sound (cache : ServiceCache) : Prop where
  nodup : cache.fds.Nodup
  pos : ∀ fd ∈ cache.fds, 0 < fd

theorem Sound.sublist {cache' : ServiceCache} (h : cache.Sound) (hs : List.Sublist cache' cache) :
    Sound cache' :=
  ⟨h.nodup.sublist (hs.map _), fun fd hfd => h.pos fd ((hs.map _).subset hfd)⟩

theorem Sound.cons {e : CachedFd} (h : cache.Sound) (hpos : 0 < e.fd) (hnot : e.fd ∉ cache.fds) :
    Sound (e :: cache) :=
  ⟨List.nodup_cons.mpr ⟨hnot, h.nodup⟩, by
    intro fd hfd
    rcases List.mem_cons.mp hfd with rfl | hfd
    · exact hpos
    · exact h.pos fd hfd⟩

theorem fileTalk_cases (cache : ServiceCache) (t : Talk P) :
    List.Sublist (cache.fileTalk t) cache ∨
      0 < t.fd ∧ ∃ no, cache.fileTalk t = ⟨no, t.fd, t.remote, t.peer⟩ :: cache := by
  unfold fileTalk
  split
  · rename_i service hs
    split_ifs with hpos
    · unfold insertFd
      split_ifs
      · exact .inl (.refl _)
      · exact .inr ⟨hpos, _, rfl⟩
    · exact .inl List.eraseP_sublist
  · exact .inl (.refl _)

theorem fileTalks_sound (talks : List (Talk P)) (h : cache.Sound)
    (hd : talks.Pairwise fun a b => 0 < a.fd → a.fd ≠ b.fd)
    (ha : ∀ t ∈ talks, 0 < t.fd → t.fd ∉ cache.fds) : (cache.fileTalks talks).Sound := by
  induction talks generalizing cache with
  | nil => exact h
  | cons t talks ih =>
    obtain ⟨hne, hd⟩ := List.pairwise_cons.mp hd
    obtain ⟨hat, ha⟩ := List.forall_mem_cons.mp ha
    show Sound (fileTalks (cache.fileTalk t) talks)
    rcases cache.fileTalk_cases t with hs | ⟨hpos, no, he⟩
    · exact ih (h.sublist hs) hd fun u hu hup hin => ha u hu hup ((hs.map _).subset hin)
    · rw [he]
      refine ih (h.cons hpos (hat hpos)) hd fun u hu hup hin => ?_
      rcases List.mem_cons.mp hin with he' | hin
      · exact hne u hu hpos he'.symm
      · exact ha u hu hup hin

theorem mem_fileTalks {talks : List (Talk P)} {e : CachedFd} (h : e ∈ cache.fileTalks talks) :
    e ∈ cache ∨ ∃ t ∈ talks, 0 < t.fd ∧ e.fd = t.fd ∧ e.remote = t.remote := by
  induction talks generalizing cache with
  | nil => exact .inl h
  | cons t talks ih =>
    rcases @ih (cache.fileTalk t) h with h | ⟨u, hu, hfd⟩
    · rcases cache.fileTalk_cases t with hs | ⟨hpos, no, he⟩
      · exact .inl (hs.subset h)
      · rw [he] at h
        rcases List.mem_cons.mp h with rfl | h
        · exact .inr ⟨t, List.mem_cons_self, hpos, rfl, rfl⟩
        · exact .inl h
    · exact .inr ⟨u, List.mem_cons_of_mem _ hu, hfd⟩

theorem getFd_sublist (cache : ServiceCache) (service : Service) :
    List.Sublist (cache.getFd service).2.2 cache := by
  rcases cache.getFd_cases service with he | ⟨e, -, he, -⟩
  · rw [he]
  · rw [he]
    exact List.eraseP_sublist

theorem getFd_fd (hc : cache.fds.Nodup) (service : Service) :
    (cache.getFd service).1 = 0 ∨ (cache.getFd service).1 ∈ cache.fds ∧
      (cache.getFd service).1 ∉ fds (cache.getFd service).2.2 := by
  rcases cache.getFd_cases service with he | ⟨e, hmem, he, hp⟩
  · exact .inl (by rw [he])
  · right
    rw [he]
    have hn := (hp.map CachedFd.fd).nodup_iff.mp hc
    exact ⟨List.mem_map_of_mem hmem, (List.nodup_cons.mp hn).1⟩

theorem getFd_remote (cache : ServiceCache) (service : Service) :
    ∀ r, (cache.getFd service).2.1 = some r → ∃ e ∈ cache, e.remote = some r := by
  intro r hr
  rcases cache.getFd_cases service with he | ⟨e, hmem, he, -⟩ <;> rw [he] at hr
  · cases hr
  · exact ⟨e, hmem, hr⟩

end ServiceCache

namespace BizProcedure

structure Assigned (cache cache' : ServiceCache) (n : ℕ) (talks : List (Talk P)) : Prop where
  index : ∀ (i : ℕ) (t : Talk P), talks[i]? = some t → t.noTalk = n + i
  assigned : ∀ (i : ℕ) (t : Talk P), talks[i]? = some t →
    ∃ pools now, ∃ args : Talk.Args P,
      t = Talk.followAll (talks.drop (i + 1)) (Talk.assign pools now args).1 ∧
    (args.fd = 0 ∨ args.fd ∈ cache.fds) ∧
    ∀ r, args.remote = some r → ∃ e ∈ cache, e.remote = some r
  distinct : talks.Pairwise fun a b => 0 < a.fd → a.fd ≠ b.fd
  sublist : List.Sublist cache' cache
  fds : ∀ t ∈ talks, 0 < t.fd → t.fd ∈ cache.fds ∧ t.fd ∉ cache'.fds

theorem Assigned.cons {cache cache₁ cache₂ : ServiceCache} {n : ℕ} {talks : List (Talk P)}
    (h : Assigned cache₁ cache₂ (n + 1) talks) (pools : PoolProtocols P) (now : ℤ)
    {args : Talk.Args P} (hn : args.noTalk = n) (hsub : List.Sublist cache₁ cache)
    (hfd : args.fd = 0 ∨ args.fd ∈ cache.fds ∧ args.fd ∉ cache₁.fds)
    (hremote : ∀ r, args.remote = some r → ∃ e ∈ cache, e.remote = some r) :
    Assigned cache cache₂ n (Talk.followAll talks (Talk.assign pools now args).1 :: talks) := by
  have hhead : 0 < (Talk.assign pools now args).1.fd →
      (Talk.assign pools now args).1.fd ∈ cache.fds ∧
        (Talk.assign pools now args).1.fd ∉ cache₁.fds := by
    intro hpos
    rcases Talk.assign_fd pools now args with he | he
    · rw [he] at hpos ⊢
      exact hfd.resolve_left (by omega)
    · omega
  exact {
    index := by
      intro i t ht
      cases i with
      | zero =>
        obtain rfl := Option.some.inj ht
        rw [Talk.followAll_noTalk, Talk.assign_noTalk, hn]
        rfl
      | succ i =>
        have := h.index i t ht
        omega
    assigned := by
      intro i t ht
      cases i with
      | zero =>
        obtain rfl := Option.some.inj ht
        exact ⟨pools, now, args, rfl, hfd.imp_right And.left, hremote⟩
      | succ i =>
        obtain ⟨pools', now', args', he, hf, hr⟩ := h.assigned i t ht
        refine ⟨pools', now', args', he, hf.imp_right fun h => (hsub.map _).subset h, ?_⟩
        intro r hr'
        obtain ⟨e, hmem, he⟩ := hr r hr'
        exact ⟨e, hsub.subset hmem, he⟩
    distinct := by
      refine List.pairwise_cons.mpr ⟨fun t ht hpos he => ?_, h.distinct⟩
      rw [Talk.followAll_fd] at hpos he
      exact (hhead hpos).2 (he ▸ (h.fds t ht (he ▸ hpos)).1)
    sublist := h.sublist.trans hsub
    fds := by
      refine List.forall_mem_cons.mpr ⟨fun hpos => ?_, fun t ht hpos => ?_⟩
      · rw [Talk.followAll_fd] at hpos ⊢
        obtain ⟨hin, hout⟩ := hhead hpos
        exact ⟨hin, fun hmem => hout ((h.sublist.map _).subset hmem)⟩
      · obtain ⟨hin, hout⟩ := h.fds t ht hpos
        exact ⟨(hsub.map _).subset hin, hout⟩ }

theorem assignTalks_assigned (category : Talk.Category) (timeoMs now : ℤ)
    (reqs : List (Service × Option P.Buf)) (n : ℕ) {cache : ServiceCache}
    (pools : PoolProtocols P) (hc : cache.fds.Nodup) :
    Assigned cache (assignTalks category timeoMs now reqs n cache pools).2.1 n
      (assignTalks category timeoMs now reqs n cache pools).1 := by
  induction reqs generalizing n cache pools with
  | nil =>
    exact ⟨by simp [assignTalks], by simp [assignTalks], .nil, .refl _, by simp [assignTalks]⟩
  | cons req reqs ih =>
    obtain ⟨service, buf⟩ := req
    have hsub := cache.getFd_sublist service
    exact Assigned.cons (ih (n + 1) _ (hc.sublist (hsub.map _))) pools now rfl hsub
      (ServiceCache.getFd_fd hc service) (cache.getFd_remote service)

structure BuiltOp (A : Tolerance) (b b' : BizProcedure P) (op : Op P) (talks : List (Talk P)) :
    Prop where
  built : Built talks
  startable : ∀ t ∈ talks, t.Startable A
  last : b'.tmpPoolTalks = keepTalks talks b.tmpPoolTalks ++ [talks]
  sublist : List.Sublist b'.serviceCache b.serviceCache
  apart : (∀ buf, op ≠ .writeBack buf) → ∀ t ∈ talks, 0 < t.fd → t.fd ∉ b'.serviceCache.fds
  waiting : b'.waiting = b.waiting
  returns : b'.returns = b.returns

def CacheTimed (A : Tolerance) (b : BizProcedure P) : Prop :=
  A.untimed ∨ ∀ e ∈ b.serviceCache, ∀ r, e.remote = some r → r.TimeoOk

theorem buildServiceTalks_built {b : BizProcedure P} (hc : b.serviceCache.Sound)
    (ht : CacheTimed A b) (op : Op P) (category : Talk.Category)
    (reqs : List (Service × Option P.Buf)) (timeoMs now : ℤ) :
    BuiltOp A b (b.buildServiceTalks category reqs timeoMs now).2 op
      (b.buildServiceTalks category reqs timeoMs now).1 := by
  have h := assignTalks_assigned category timeoMs now reqs 0 b.pools hc.nodup
  exact {
    built := {
      index := fun i t hi => by simpa using h.index i t hi
      assigned := by
        intro i t ht
        obtain ⟨pools, now, args, he, -⟩ := h.assigned i t ht
        exact ⟨pools, now, args, he⟩
      distinct := h.distinct }
    startable := by
      intro t hmem
      obtain ⟨i, hi⟩ := List.mem_iff_getElem?.mp hmem
      obtain ⟨pools, now, args, rfl, hfd, hr⟩ := h.assigned i t hi
      refine Talk.Startable.followAll ?_ _
      refine Talk.assign_startable pools now args (.inr ?_) (ht.imp_right fun ht r hrem => ?_)
      · rcases hfd with hfd | hfd
        · exact hfd.ge
        · exact (hc.pos _ hfd).le
      · obtain ⟨e, he, her⟩ := hr r hrem
        exact ht e he r her
    last := rfl
    sublist := h.sublist
    apart := fun _ t hmem hpos => (h.fds t hmem hpos).2
    waiting := rfl
    returns := rfl }

theorem buildWriteBack_built {b : BizProcedure P} (hfd : A.orphan ∨ 0 < b.fdClient) (buf : P.Buf)
    (timeoMs now : ℤ) :
    BuiltOp A b (b.buildWriteBack buf timeoMs now).2 (.writeBack buf)
      (b.buildWriteBack buf timeoMs now).1 where
  built := {
    index := by
      intro i t hi
      cases i with
      | zero =>
        obtain rfl := Option.some.inj hi
        exact Talk.assign_noTalk _ _ _
      | succ i => simp [buildWriteBack] at hi
    assigned := by
      intro i t hi
      cases i with
      | zero =>
        obtain rfl := Option.some.inj hi
        exact ⟨_, _, _, rfl⟩
      | succ i => simp [buildWriteBack] at hi
    distinct := List.pairwise_singleton _ _ }
  startable := by
    intro t hmem
    rw [List.mem_singleton.mp hmem]
    exact Talk.assign_startable _ _ _ (hfd.imp_right le_of_lt) (.inr (by simp))
  last := rfl
  sublist := .refl _
  apart := fun h => absurd rfl (h buf)
  waiting := rfl
  returns := rfl

theorem buildTalks_built {b : BizProcedure P} (op : Op P) (hc : b.serviceCache.Sound)
    (ht : CacheTimed A b) (hfd : A.orphan ∨ ∀ buf, op = .writeBack buf → 0 < b.fdClient)
    (timeoMs now : ℤ) :
    BuiltOp A b (b.buildTalks op timeoMs now).2 op (b.buildTalks op timeoMs now).1 := by
  cases op with
  | writeBack buf => exact buildWriteBack_built (hfd.imp_right fun h => h buf rfl) buf timeoMs now
  | _ => exact buildServiceTalks_built hc ht _ _ _ timeoMs now

structure SuspendedInv (A : Tolerance) (b : BizProcedure P) (p : Suspended P) : Prop where
  agent : ∃ talks, b.tmpPoolTalks.getLast? = some talks ∧ p.agent.Inv A talks ∧
    Built talks ∧ (A.shared ∨ Talk.Apart talks)
  apart : (∀ buf, p.op ≠ .writeBack buf) →
    ∀ t ∈ p.agent.session.talks, 0 < t.fd → t.fd ∉ b.serviceCache.fds
  failed : p.everFailed = true → p.agent.session.hasFailure = true

/-- An operation that returned `kOk`: it was driven, without any failure, to the end of
every talk that was not skipped. -/
def OpReturn.Complete (A : Tolerance) (r : OpReturn P) : Prop :=
  ∃ s, r.session = some s ∧ r.everFailed = false ∧ s.hasFailure = false ∧
    (∃ t ∈ s.talks, t.buf.isSome) ∧
    ∀ t ∈ s.talks, t.buf.isSome → t.attempt.passed t.category = true ∧
      (A.shared ∨ (t.category ≠ .kReadOnly → t.WroteRequest))

structure Inv (A : Tolerance) (b : BizProcedure P) : Prop where
  cache : b.serviceCache.Sound
  waiting : ∀ p, b.waiting = some p → SuspendedInv A b p
  returns : ∀ r ∈ b.returns, r.ret = .kOk → OpReturn.Complete A r

def Tolerated (A : Tolerance) (conf : ConfNormal) (b : BizProcedure P) : Label P → Prop
  | .call op timeoMs now _ _ => CacheTimed A b ∧
      (A.shared ∨ Talk.Apart (b.buildTalks op timeoMs now).1) ∧
      (A.orphan ∨ ∀ buf, op = .writeBack buf →
        0 < b.fdClient ∨ headError (b.buildTalks op timeoMs now).1 ≠ .kOk)
  | .agent l => ∀ p, b.waiting = some p → AgentSlave.Tolerated A conf p.agent l
  | .resume => True
  | .freeTalks => True

variable {conf : ConfNormal} {b : BizProcedure P}

theorem inv_returnAtOnce (h : b.Inv A) {op : Op P} {ret : ErrorNo} (hr : ret ≠ .kOk) :
    (b.returnAtOnce op ret).Inv A where
  cache := h.cache
  waiting := fun p hp => ⟨(h.waiting p hp).agent, (h.waiting p hp).apart, (h.waiting p hp).failed⟩
  returns := by
    intro r hmem hok
    rcases List.mem_append.mp hmem with hmem | hmem
    · exact h.returns r hmem hok
    · rw [List.mem_singleton.mp hmem] at hok
      exact absurd hok hr

theorem inv_call (h : b.Inv A) {op : Op P} {timeoMs now : ℤ} {accepted : Bool}
    {ctxs : EventCtxPool} (hw : b.waiting.isNone)
    (ht : Tolerated A conf b (.call op timeoMs now accepted ctxs)) :
    (b.call op timeoMs now accepted ctxs).Inv A := by
  obtain ⟨htimed, hapart, hfd⟩ := ht
  have hnone : b.waiting = none := Option.isNone_iff_eq_none.mp hw
  have hkept := buildTalks_built (A := .all) op h.cache (.inl trivial) (.inl trivial) timeoMs now
  have hbuilt : (b.buildTalks op timeoMs now).2.Inv A := {
    cache := h.cache.sublist hkept.sublist
    waiting := fun p hp => by rw [hkept.waiting, hnone] at hp; cases hp
    returns := by rw [hkept.returns]; exact h.returns }
  unfold call
  dsimp only
  split_ifs with henc hacc
  · exact inv_returnAtOnce hbuilt henc.2
  · have hclient : A.orphan ∨ ∀ buf, op = .writeBack buf → 0 < b.fdClient := by
      refine hfd.imp_right fun hfd buf hop => (hfd buf hop).resolve_right fun herr => ?_
      exact henc ⟨by rw [hop]; rfl, herr⟩
    have hstart := buildTalks_built op h.cache htimed hclient timeoMs now
    refine ⟨hbuilt.cache, fun p hp => ?_, hbuilt.returns⟩
    obtain rfl := Option.some.inj hp
    have hinv := AgentSlave.inv_start ctxs hstart.built hstart.startable hapart
    refine ⟨⟨_, by simp [hstart.last], hinv, hstart.built, hapart⟩, fun hop t hmem => ?_, by simp⟩
    rw [AgentSlave.start_talks] at hmem
    exact hstart.apart hop t hmem
  · exact inv_returnAtOnce hbuilt (by simp)

theorem inv_agentStep (h : b.Inv A) {l : AgentSlave.Label}
    (hl : AgentEnabled b.serviceCache l b.waiting)
    (ht : Tolerated A conf b (.agent l)) : (b.agentStep conf l).Inv A := by
  cases hp : b.waiting with
  | none => rw [hp] at hl; exact hl.elim
  | some p =>
    rw [hp] at hl
    obtain ⟨hen, hfresh⟩ := hl
    have hs := h.waiting p hp
    obtain ⟨talks, hlast, hinv, hbuilt⟩ := hs.agent
    have htol := ht p hp
    simp only [agentStep, hp]
    refine ⟨h.cache, fun q hq => ?_, h.returns⟩
    obtain rfl := Option.some.inj hq
    refine ⟨⟨talks, hlast, AgentSlave.inv_next hinv hen htol, hbuilt⟩,
      fun hop t hmem hpos => ?_, ?_⟩
    · rcases AgentSlave.next_fd hinv hen htol hmem with ⟨t', ht', hfd⟩ | hle | ⟨env, henv, hg, hfd⟩
      · rw [hfd] at hpos ⊢
        exact hs.apart hop t' ht' hpos
      · omega
      · rw [hfd]
        exact hfresh env henv hg
    · intro hf
      by_contra hne
      rw [Bool.not_eq_true] at hne
      have hold := AgentSlave.hasFailure_sticky hinv hen htol hne
      rcases Bool.or_eq_true_iff.mp hf with hf | hf
      · rw [hs.failed hf] at hold
        cases hold
      · rw [hne] at hf
        cases hf

theorem fileOp_returns (b : BizProcedure P) (op : Op P) (talks : List (Talk P)) :
    (b.fileOp op talks).returns = b.returns := by
  unfold fileOp
  split
  · split_ifs <;> rfl
  · rfl

theorem fileOp_sound {p : Suspended P} {s : Session P} {pc : Pc} (hc : b.serviceCache.Sound)
    (hs : s.Inv A pc) (ha : (∀ buf, p.op ≠ .writeBack buf) →
      ∀ t ∈ s.talks, 0 < t.fd → t.fd ∉ b.serviceCache.fds) :
    (b.fileOp p.op s.talks).serviceCache.Sound := by
  have hsound : (∀ buf, p.op ≠ .writeBack buf) → (b.serviceCache.fileTalks s.talks).Sound :=
    fun hop => ServiceCache.fileTalks_sound _ hc hs.pairwise_fd (ha hop)
  unfold fileOp
  cases hop : p.op with
  | writeBack buf =>
    dsimp only
    split_ifs <;> exact hc
  | _ => exact hsound (by simp [hop])

theorem inv_resume (h : b.Inv A) (hl : Replied b.waiting) : b.resume.Inv A := by
  cases hp : b.waiting with
  | none => rw [hp] at hl; exact hl.elim
  | some p =>
    rw [hp] at hl
    have hs := h.waiting p hp
    obtain ⟨talks, hlast, hinv, hbuilt, hapart⟩ := hs.agent
    rcases hinv.replied with ⟨hsent, -⟩ | ⟨e, hsent, hpc, hdone, hok⟩
    · simp [Replied, hsent] at hl
    simp only [resume, hp, hsent]
    refine ⟨fileOp_sound h.cache hinv.session hs.apart, by simp, fun r hmem hret => ?_⟩
    rw [fileOp_returns] at hmem
    rcases List.mem_append.mp hmem with hmem | hmem
    · exact h.returns r hmem hret
    · rw [List.mem_singleton.mp hmem] at hret ⊢
      obtain ⟨hfail, hdriven⟩ := hok hret
      obtain rfl : e = .kOk := hret
      refine ⟨_, rfl, ?_, hfail, hdriven, fun t ht hbuf => ?_⟩
      · by_contra hne
        rw [Bool.not_eq_false] at hne
        rw [hs.failed hne] at hfail
        cases hfail
      · have hpassed := (hinv.kOk_succeeded hsent ht hbuf).passed
        refine ⟨hpassed, ?_⟩
        by_cases hA : A.shared
        · exact .inl hA
        · have hrecord := hinv.writeRecord hA hbuilt (hapart.resolve_left hA) ht
          exact .inr fun hc => hrecord.wroteRequest hpassed hc

theorem inv_next {l : Label P} (h : b.Inv A) (hl : Enabled b l) (ht : Tolerated A conf b l) :
    (next conf b l).Inv A := by
  cases l with
  | call op timeoMs now accepted ctxs => exact inv_call h hl ht
  | agent l => exact inv_agentStep h hl ht
  | resume => exact inv_resume h hl
  | freeTalks =>
    refine ⟨h.cache, fun p hp => ?_, h.returns⟩
    rw [show (next conf b .freeTalks).waiting = b.waiting from rfl,
      Option.isNone_iff_eq_none.mp hl] at hp
    cases hp

theorem inv_init (pools : PoolProtocols P) (fdClient : ℤ) (protocolRead : Protocol.Category) :
    (init pools fdClient protocolRead).Inv A :=
  ⟨⟨.nil, by simp [init, ServiceCache.fds]⟩, by simp [init], by simp [init]⟩

theorem tolerated_all (conf : ConfNormal) (b : BizProcedure P) (l : Label P) :
    Tolerated .all conf b l := by
  cases l with
  | call => exact ⟨.inl trivial, .inl trivial, .inl trivial⟩
  | agent l => exact fun p _ => AgentSlave.tolerated_all conf p.agent l
  | _ => trivial

end BizProcedure

end Magneto
