import Magneto.Slave

/-!
# Objects of an agent slave are conserved

`ResetTalk_` takes a context and loses it when the talk is late or the driver
refuses the event, and `CheckMailbox_` loses a session that `Session::Reset`
finishes at once. When neither happens, the contexts of the registered and of the
expired events are the ones that are missing in the pool, step by step, and the
sessions under work are the ones missing in theirs.
-/

namespace Magneto

variable {P : Protocols}

namespace Session

variable {A : Tolerance} {conf : ConfNormal} {env : Env} {isRetry : Bool} {s : Session P}
  {talk u : Talk P} {held : List ℕ}

def ctxIds (d : EventsDriver) (t : Talk P) : List ℕ := ((d t.fd).map (·.ctx.id)).toList

theorem ctxIds_of_none {d : EventsDriver} (h : d talk.fd = none) : ctxIds d talk = [] := by
  rw [ctxIds, h]
  rfl

theorem accounted_of_none (h : s.poolEventCtxs.Accounted held) (hd : s.driver talk.fd = none) :
    s.poolEventCtxs.Accounted (ctxIds s.driver talk ++ held) := by
  rw [ctxIds_of_none hd]
  exact h

def Unencodable (talk : Talk P) : Prop :=
  ∃ w buf, talk.protocolWrite = some w ∧ talk.buf = some buf ∧
    (P.encode (P.resetWriter w.val buf)).1 = false

/-- `ResetTalk_` takes no context, or the talk is in time and the driver accepts the event. -/
def ResetKept (env : Env) (isRetry : Bool) (talk : Talk P) : Prop :=
  talk.fd < 0 ∨ (talk.fd = 0 ∧ ¬ 0 < env.getFd.fd) ∨ (isRetry = true ∧ Unencodable talk) ∨
    (env.now < talk.endtimeMs ∧ env.addOk = true)

theorem ResetKept.inTime {t : Talk P} (h : ResetKept env isRetry talk) {tmp : List Remote}
    (hc : Connected env talk tmp t) (he : Encoded isRetry t true u) :
    env.now < u.endtimeMs ∧ env.addOk = true := by
  have hend : u.endtimeMs = talk.endtimeMs := by
    cases hc <;> cases he <;> rfl
  rw [hend]
  rcases h with hneg | ⟨hzero, hfd⟩ | ⟨hr, w, buf, hw, hb, hfail⟩ | hok
  · cases hc <;> omega
  · cases hc <;> omega
  · obtain ⟨hw', hb', -⟩ := hc.same_objects
    cases he with
    | again _ hw₁ hb₁ hok =>
      obtain rfl := Option.some.inj ((hw.symm.trans hw'.symm).trans hw₁)
      obtain rfl := Option.some.inj ((hb.symm.trans hb'.symm).trans hb₁)
      rw [hfail] at hok
      cases hok
    | skip h =>
      rcases h with h | h
      · rw [hr] at h
        cases h
      · rw [hw', hw] at h
        cases h
  · exact hok

theorem resetTalk_accounted (conf : ConfNormal) (hb : talk.buf.isSome)
    (hu : Unregistered env s.driver talk) (hkept : ResetKept env isRetry talk)
    (h : s.poolEventCtxs.Accounted held) :
    (resetTalk conf env isRetry s talk).1.poolEventCtxs.Accounted
      (ctxIds (resetTalk conf env isRetry s talk).1.driver (resetTalk conf env isRetry s talk).2 ++
        held) := by
  have hcases := resetTalk_cases conf env isRetry s talk
  generalize resetTalk conf env isRetry s talk = r at hcases ⊢
  cases hcases with
  | noFd hzero hfd =>
    exact accounted_of_none (s := s.fail) h (hu.nonpos (-1) (by decide))
  | invalid hneg => exact accounted_of_none (s := (s.bug .invalidFd).fail) h hu.old
  | noBuf tmp t hc hnone hw =>
    rw [hc.same_objects.2.1] at hnone
    simp [hnone] at hb
  | encode tmp t u hc he =>
    exact accounted_of_none (s := s.fail) h ((hc.prepared he).unregistered hu)
  | late tmp t u hc he ht =>
    have := (hkept.inTime hc he).1
    omega
  | refused tmp t u hc he hok =>
    rw [(hkept.inTime hc he).2] at hok
    cases hok
  | registered tmp t u hc he ht hok =>
    have hids : ctxIds (Function.update s.driver u.fd
        (some (newSlot conf env tmp (s.poolEventCtxs.get () ()).1.id u))) u =
          [(s.poolEventCtxs.get () ()).1.id] := by
      simp [ctxIds, newSlot]
    rw [hids]
    exact h.get () ()

theorem resetOne_accounted (hstart : talk.Startable A) (hu : Unregistered env s.driver talk)
    (hkept : talk.status ≠ .kEnd → ResetKept env false talk) (h : s.poolEventCtxs.Accounted held) :
    (resetOne conf env s talk).1.poolEventCtxs.Accounted
      (ctxIds (resetOne conf env s talk).1.driver (resetOne conf env s talk).2 ++ held) := by
  unfold resetOne
  by_cases hend : talk.status = .kEnd
  · simp only [hend, ↓reduceIte]
    exact accounted_of_none (s := { s with numTalksDone := s.numTalksDone + 1 }) h hu.old
  · have hbuf : talk.buf.isSome := by
      cases hstart with
      | skipped hb hs => exact absurd hs hend
      | unencoded hb => exact hb
      | ready ho => exact ho.buf
    have hreset := resetTalk_accounted conf hbuf hu (hkept hend) h
    simp only [hend, ↓reduceIte]
    split_ifs <;> exact hreset

theorem ResetKept.congr (h : ResetKept env isRetry talk) (hfd : u.fd = talk.fd)
    (hw : u.protocolWrite = talk.protocolWrite) (hb : u.buf = talk.buf)
    (he : u.endtimeMs = talk.endtimeMs) : ResetKept env isRetry u := by
  unfold ResetKept Unencodable at h ⊢
  rw [hfd, hw, hb, he]
  exact h

theorem retryTalk_accounted (hb : talk.buf.isSome) (hu : Unregistered env s.driver talk)
    (hkept : ResetKept env true { talk with fd := 0 }) (h : s.poolEventCtxs.Accounted held) :
    (retryTalk conf env s talk).1.poolEventCtxs.Accounted
      (ctxIds (retryTalk conf env s talk).1.driver (retryTalk conf env s talk).2 ++ held) := by
  have key : ∀ s' : Session P, s'.driver = s.driver → s'.poolEventCtxs = s.poolEventCtxs →
      ∀ t : Talk P, t.fd = 0 → t.protocolWrite = talk.protocolWrite → t.buf = talk.buf →
        t.endtimeMs = talk.endtimeMs →
        (resetTalk conf env true s' t).1.poolEventCtxs.Accounted
          (ctxIds (resetTalk conf env true s' t).1.driver (resetTalk conf env true s' t).2 ++
            held) := by
    intro s' hd hp t hfd hw hbuf he
    refine resetTalk_accounted conf (hbuf ▸ hb) ?_ (hkept.congr hfd hw hbuf he) (hp ▸ h)
    rw [hd]
    exact ⟨hu.nonpos, hfd ▸ hu.nonpos 0 le_rfl, hu.new⟩
  have hdriver : (if 0 < talk.fd then s.close talk.fd else s).driver = s.driver := by
    split_ifs <;> rfl
  have hpool : (if 0 < talk.fd then s.close talk.fd else s).poolEventCtxs = s.poolEventCtxs := by
    split_ifs <;> rfl
  have hreset := key _ hdriver hpool { talk with
    retry := talk.retry - 1
    fd := 0
    error := .kOk
    attempt := .fresh
    past := talk.past ++ [talk.attempt] } rfl rfl rfl rfl
  unfold retryTalk
  dsimp only
  generalize resetTalk conf env true _ _ = r at hreset ⊢
  split_ifs <;> exact hreset

theorem finishTalk_accounted (conf : ConfNormal) (succ : Bool) (s : Session P) (talk : Talk P)
    (hb : talk.buf.isSome) (hu : Unregistered env s.driver talk)
    (hkept : succ = false → talk.retry ≠ 0 → ResetKept env true { talk with fd := 0 })
    (h : s.poolEventCtxs.Accounted held) :
    (finishTalk conf env succ s talk).1.poolEventCtxs.Accounted
      (ctxIds (finishTalk conf env succ s talk).1.driver (finishTalk conf env succ s talk).2.1 ++
        held) := by
  obtain ⟨s₁, hs₁, hd, hp⟩ : ∃ s₁ : Session P, (if s.talks.length < s.numTalksDone + 1 then
        bug { s with numTalksDone := s.numTalksDone + 1 } .numTalksDone
      else { s with numTalksDone := s.numTalksDone + 1 }) = s₁ ∧ s₁.driver = s.driver ∧
        s₁.poolEventCtxs = s.poolEventCtxs := by
    split_ifs <;> exact ⟨_, rfl, rfl, rfl⟩
  obtain ⟨reports, failRemotes, hrep⟩ := reportStatus_eq env succ s₁ { talk with counted := true }
  simp only [finishTalk, hs₁, hrep]
  have hidle : ∀ s' : Session P, s'.driver = s.driver → s'.poolEventCtxs = s.poolEventCtxs →
      s'.poolEventCtxs.Accounted (ctxIds s'.driver talk ++ held) := by
    intro s' hd' hp'
    exact accounted_of_none (hp' ▸ h) (hd' ▸ hu.old)
  cases succ with
  | true => exact hidle { s₁ with reports := reports } hd hp
  | false =>
    simp only [Bool.false_eq_true, ↓reduceIte]
    split_ifs with hretry
    · refine retryTalk_accounted hb (hd ▸ ?_) ((hkept rfl hretry).congr rfl rfl rfl rfl) (hp ▸ h)
      exact ⟨hu.nonpos, hu.old, hu.new⟩
    · exact hidle (fail { s₁ with reports := reports }) hd hp

end Session

namespace AgentSlave

open Session (ctxIds ResetKept Unregistered)

section handlers

variable {env : Env} {ctx : EventCtx} {s s₀ : Session P} {talk u : Talk P}

structure CtxKept (ctx : EventCtx) (s : Session P) (h : Handled P) : Prop where
  pool : h.session.poolEventCtxs = s.poolEventCtxs
  more : h.more = true → (h.session.driver h.talk.fd).map (·.ctx.id) = some ctx.id

theorem errorHandle_ctxKept (error : ErrorNo) (hp : s.poolEventCtxs = s₀.poolEventCtxs) :
    CtxKept ctx s₀ (errorHandle s u error) := by
  unfold errorHandle
  dsimp only
  split_ifs
  · exact ⟨hp, by simp⟩
  · exact ⟨hp, by simp⟩

theorem checkTimeout_id (now timeleft : ℤ) (ctx : EventCtx) :
    (ctx.checkTimeout now timeleft).2.id = ctx.id := by
  unfold EventCtx.checkTimeout
  dsimp only
  split_ifs <;> rfl

theorem waitMore_ctxKept (timeleft : ℤ) (direction : EventsDriver.Direction)
    (hp : s.poolEventCtxs = s₀.poolEventCtxs) :
    CtxKept ctx s₀ (waitMore env timeleft direction ctx s u) := by
  unfold waitMore
  dsimp only
  split_ifs with hto hreg
  · exact errorHandle_ctxKept _ hp
  · refine ⟨hp, fun _ => ?_⟩
    cases hok : env.modOk with
    | false => simp [EventsDriver.regEventMod, hok] at hreg
    | true => simp [EventsDriver.regEventMod, checkTimeout_id]
  · exact errorHandle_ctxKept _ hp

theorem turnToRead_ctxKept (s : Session P) (u : Talk P) :
    CtxKept ctx s (turnToRead env ctx s u) := by
  unfold turnToRead
  dsimp only
  split_ifs
  · exact errorHandle_ctxKept _ rfl
  · exact waitMore_ctxKept _ _ rfl
  · exact waitMore_ctxKept _ _ rfl

theorem handleSessionEvent_ctxKept (event : EventsDriver.Event)
    (hslot : (s.driver talk.fd).map (·.ctx.id) = some ctx.id) :
    CtxKept ctx s (handleSessionEvent env event ctx s talk) := by
  unfold handleSessionEvent
  split_ifs
  · exact errorHandle_ctxKept _ rfl
  split
  · exact waitMore_ctxKept _ _ rfl
  · unfold handleSessionEventRead
    split
    · exact ⟨rfl, fun _ => hslot⟩
    · dsimp only
      split_ifs
      · exact errorHandle_ctxKept _ rfl
      · exact errorHandle_ctxKept _ rfl
      · exact waitMore_ctxKept _ _ rfl
      · exact errorHandle_ctxKept _ rfl
  · unfold handleSessionEventWrite
    split
    · exact ⟨rfl, fun _ => hslot⟩
    · dsimp only
      split_ifs
      · exact turnToRead_ctxKept _ _
      · exact errorHandle_ctxKept _ rfl
      · exact errorHandle_ctxKept _ rfl
      · exact waitMore_ctxKept _ _ rfl
      · exact errorHandle_ctxKept _ rfl
  · exact ⟨rfl, by simp⟩

end handlers

section talks

variable {A : Tolerance} {conf : ConfNormal} {env : Env} {s : Session P} {talk : Talk P}
  {held : List ℕ}

def RetryKept (env : Env) (h : Handled P) : Prop :=
  h.more = false → h.talk.error ≠ .kOk → h.talk.retry ≠ 0 →
    ResetKept env true { h.talk with fd := 0 }

theorem checkTalk_accounted (event : EventsDriver.Event) {slot : EventsDriver.Slot}
    (hw : talk.Working A) (hslot : s.driver talk.fd = some slot)
    (hn : slot.ctx.noTalk = talk.noTalk) (ht : A.untimed ∨ slot.expireTimeMs.isSome)
    (hu : Unregistered env (s.driver.regEventDel talk.fd) talk)
    (hkept : RetryKept env (handleSessionEvent env event slot.ctx s talk))
    (h : s.poolEventCtxs.Accounted (slot.ctx.id :: held)) :
    let r := checkTalk conf env event slot.ctx s talk
    r.1.poolEventCtxs.Accounted (ctxIds r.1.driver r.2 ++ held) := by
  have hspec := handleSessionEvent_spec env event hw hslot hn ht
  have hctx : CtxKept slot.ctx s (handleSessionEvent env event slot.ctx s talk) :=
    handleSessionEvent_ctxKept event (by rw [hslot]; rfl)
  unfold checkTalk
  generalize handleSessionEvent env event slot.ctx s talk = r at hspec hctx hkept ⊢
  dsimp only
  cases hspec.result with
  | more hm hfd hd ha =>
    have hids : ctxIds r.session.driver r.talk = [slot.ctx.id] := by
      rw [ctxIds, hctx.more hm]
      rfl
    rw [if_pos hm, hids, hctx.pool]
    exact h
  | finish hm hfd hd hf =>
    rw [if_neg (by simp [hm])]
    refine Session.finishTalk_accounted conf _ _ _ hf.objects.buf
      (unregistered_of_handled hu hd hfd) ?_ ?_
    · intro hfail hretry
      exact hkept hm (by simpa using hfail) hretry
    · show (r.session.poolEventCtxs.put ⟨slot.ctx.id, (), ()⟩).Accounted held
      rw [hctx.pool]
      exact h.put

theorem expireTalk_accounted (ctx : EventCtx) (hw : talk.Working A)
    (hu : Unregistered env s.driver talk)
    (hkept : talk.retry ≠ 0 → ResetKept env true { talk with fd := 0 })
    (h : s.poolEventCtxs.Accounted (ctx.id :: held)) :
    let r := expireTalk conf env s talk
    (freeEventCtx r.1 ctx).poolEventCtxs.Accounted (ctxIds r.1.driver r.2 ++ held) := by
  have hfinish := Session.finishTalk_accounted conf false (s.close talk.fd) { talk with fd := -1 }
    hw.objects.buf ⟨hu.nonpos, hu.nonpos (-1) (by decide), hu.new⟩ (fun _ => hkept) h
  exact (hfinish.perm List.perm_middle).put

end talks

section held

variable {A : Tolerance} {conf : ConfNormal} {env : Env} {s s' : Session P} {t u : Talk P} {pc : Pc}
  {n : ℕ} {rest : List ℕ}

def talkCtxs (s : Session P) : List ℕ := s.talks.flatMap (ctxIds s.driver)

def expiredCtxs : Pc → List ℕ
  | .reset _ => []
  | .poll => []
  | .clean timeouts => timeouts.map EventCtx.id

def heldCtxs (a : AgentSlave P) : List ℕ := talkCtxs a.session ++ expiredCtxs a.pc

theorem talkCtxs_work (h : s.Inv A pc) (hget : s.talks[n]? = some t)
    (hw : Session.Worked A env (unregister s t.fd) t s' u) (hfresh : Fresh s n env) :
    ∃ others, (talkCtxs s).Perm (ctxIds s.driver t ++ others) ∧
      (talkCtxs (s'.setTalk u)).Perm (ctxIds s'.driver u ++ others) := by
  obtain ⟨l₁, l₂, hsplit, hlen⟩ := List.exists_append_of_getElem? hget
  have htn : t.noTalk = n := h.index n t hget
  have htalks : (s'.setTalk u).talks = l₁.map u.follow ++ u :: l₂.map u.follow := by
    rw [Session.setTalk, hw.talks, hw.noTalk.trans htn]
    show (s.talks.map u.follow).set n u = _
    rw [hsplit, ← hlen]
    simp
  have hother : ∀ x ∈ l₁ ++ l₂, ctxIds s'.driver x = ctxIds s.driver x := by
    intro x hx
    have hmem : x ∈ s.talks := by
      rw [hsplit]
      simp only [List.mem_append, List.mem_cons] at hx ⊢
      tauto
    have hpair := h.pairwise_noTalk
    rw [hsplit, List.pairwise_middle Ne.symm] at hpair
    have hne : x.noTalk ≠ n := htn ▸ ((List.pairwise_cons.mp hpair).1 x hx).symm
    rw [ctxIds, ctxIds, h.driver_frame hget hw hfresh hmem hne]
  refine ⟨(l₁ ++ l₂).flatMap (ctxIds s.driver), ?_, ?_⟩
  · rw [talkCtxs, hsplit]
    exact List.perm_middle.flatMap_right _
  · have hdriver : (s'.setTalk u).driver = s'.driver := rfl
    have hsame : ∀ l : List (Talk P),
        (l.map u.follow).flatMap (ctxIds s'.driver) = l.flatMap (ctxIds s'.driver) := by
      intro l
      rw [List.flatMap_map]
      rfl
    rw [talkCtxs, htalks, hdriver, ← List.flatMap_congr hother, List.flatMap_append,
      List.flatMap_cons, hsame, hsame, List.flatMap_append]
    exact List.perm_append_comm_assoc _ _ _

theorem accounted_work (ids : List ℕ) (h : s.Inv A pc) (hget : s.talks[n]? = some t)
    (hw : Session.Worked A env (unregister s t.fd) t s' u) (hfresh : Fresh s n env)
    (hcall : ∀ held, s.poolEventCtxs.Accounted (ids ++ ctxIds s.driver t ++ held) →
      s'.poolEventCtxs.Accounted (ctxIds s'.driver u ++ held))
    (hacc : s.poolEventCtxs.Accounted (ids ++ talkCtxs s ++ rest)) :
    (s'.setTalk u).poolEventCtxs.Accounted (talkCtxs (s'.setTalk u) ++ rest) := by
  obtain ⟨others, hold, hnew⟩ := talkCtxs_work h hget hw hfresh
  have hstart : s.poolEventCtxs.Accounted (ids ++ ctxIds s.driver t ++ (others ++ rest)) := by
    refine hacc.perm ?_
    rw [List.append_assoc, List.append_assoc, ← List.append_assoc (ctxIds s.driver t)]
    exact (hold.append_right rest).append_left ids
  refine (hcall _ hstart).perm ?_
  rw [← List.append_assoc]
  exact (hnew.append_right rest).symm

theorem ctxs_regEventDel {d : EventsDriver} {talks : List (Talk P)}
    (hdistinct : talks.Pairwise fun x y : Talk P => 0 < x.fd → x.fd ≠ y.fd)
    (howned : ∀ fd slot, d fd = some slot → 0 < fd ∧ ∃ t ∈ talks, t.fd = fd) (fd : ℤ) :
    (talks.flatMap (ctxIds d)).Perm
      (((d fd).map (·.ctx.id)).toList ++ talks.flatMap (ctxIds (d.regEventDel fd))) := by
  cases hd : d fd with
  | none =>
    rw [EventsDriver.regEventDel_of_none hd]
    exact .refl _
  | some slot =>
    obtain ⟨hpos, t, ht, rfl⟩ := howned fd slot hd
    obtain ⟨l₁, l₂, rfl⟩ := List.append_of_mem ht
    have hsymm : ∀ {x y : Talk P}, (0 < x.fd → x.fd ≠ y.fd) → 0 < y.fd → y.fd ≠ x.fd :=
      fun h hy he => h (he ▸ hy) he.symm
    rw [List.pairwise_middle hsymm, List.pairwise_cons] at hdistinct
    have hother : ∀ x ∈ l₁ ++ l₂, ctxIds (d.regEventDel t.fd) x = ctxIds d x := by
      intro x hx
      rw [ctxIds, ctxIds, d.regEventDel_of_ne (hdistinct.1 x hx hpos).symm]
    have hold : ctxIds d t = ((some slot).map (·.ctx.id)).toList := by rw [ctxIds, hd]
    have hnew : ctxIds (d.regEventDel t.fd) t = [] := by simp [ctxIds]
    refine (List.perm_middle.flatMap_right _).trans ?_
    refine List.Perm.trans (.of_eq ?_) ((List.perm_middle.symm.flatMap_right _).append_left _)
    rw [List.flatMap_cons, List.flatMap_cons, hold, hnew, ← List.flatMap_congr hother]
    rfl

theorem ctxs_removeTimeouts {talks : List (Talk P)}
    (hdistinct : talks.Pairwise fun x y : Talk P => 0 < x.fd → x.fd ≠ y.fd) (fds : List ℤ)
    (d : EventsDriver)
    (howned : ∀ fd slot, d fd = some slot → 0 < fd ∧ ∃ t ∈ talks, t.fd = fd) :
    (talks.flatMap (ctxIds d)).Perm
      ((removeTimeouts d fds).1.map EventCtx.id ++
        talks.flatMap (ctxIds (removeTimeouts d fds).2)) := by
  induction fds generalizing d with
  | nil => exact .refl _
  | cons fd fds ih =>
    have hrest := ih (d.regEventDel fd) fun fd' slot hd => by
      by_cases he : fd' = fd
      · simp [he] at hd
      · exact howned fd' slot (d.regEventDel_of_ne he ▸ hd)
    have hids : (removeTimeouts d (fd :: fds)).1.map EventCtx.id =
        ((d fd).map (·.ctx.id)).toList ++
          (removeTimeouts (d.regEventDel fd) fds).1.map EventCtx.id := by
      rw [removeTimeouts]
      cases d fd <;> rfl
    rw [hids, List.append_assoc]
    exact (ctxs_regEventDel hdistinct howned fd).trans (hrest.append_left _)

theorem heldCtxs_removeTimeouts (h : s.Inv A .poll) (fds : List ℤ) :
    (talkCtxs s).Perm
      (talkCtxs { s with driver := (removeTimeouts s.driver fds).2 } ++
        (removeTimeouts s.driver fds).1.map EventCtx.id) :=
  (ctxs_removeTimeouts h.pairwise_fd fds s.driver h.owned).trans List.perm_append_comm

end held

section steps

variable {conf : ConfNormal} {env : Env} {a : AgentSlave P} {talks : List (Talk P)} {l : Label}
  {rest : List ℕ}

/-- Runs in which every talk that is neither skipped nor unencoded has somebody to drive it. -/
def noOrphan : Tolerance := ⟨True, False, True, True⟩

structure Registers (env : Env) (t : Talk P) : Prop where
  status : t.status ≠ .kEnd
  fd : 0 ≤ t.fd
  got : t.fd = 0 → 0 < env.getFd.fd
  time : env.now < t.endtimeMs
  add : env.addOk = true

theorem Registers.counted {A : Tolerance} {s : Session P} {t : Talk P} (h : Registers env t)
    (hstart : t.Startable A) : (Session.resetOne conf env s t).2.counted = false := by
  obtain ⟨ho, he, hn⟩ : t.Objects ∧ t.error = .kOk ∧ t.counted = false := by
    cases hstart with
    | skipped hb hs => exact absurd hs h.status
    | unencoded hb hs he hfd =>
      have := h.fd
      omega
    | ready ho he hs hfd ht ha hn => exact ⟨ho, he, hn⟩
  have hkept : ResetKept env false t := .inr (.inr (.inr ⟨h.time, h.add⟩))
  obtain ⟨herror, hcounted⟩ : (Session.resetTalk conf env false s t).2.error = .kOk ∧
      (Session.resetTalk conf env false s t).2.counted = false := by
    have hcases := Session.resetTalk_cases conf env false s t
    generalize Session.resetTalk conf env false s t = r at hcases ⊢
    cases hcases with
    | noFd hzero hfd => exact absurd (h.got hzero) hfd
    | invalid hneg =>
      have := h.fd
      omega
    | noBuf tmp v hc hb hw =>
      have := ho.buf
      rw [← hc.same_objects.2.1, hb] at this
      cases this
    | encode tmp v u hc henc =>
      cases henc with
      | again hr => cases hr
    | late tmp v u hc henc ht =>
      have := (hkept.inTime hc henc).1
      omega
    | refused tmp v u hc henc hok =>
      rw [(hkept.inTime hc henc).2] at hok
      cases hok
    | registered tmp v u hc henc ht hok =>
      have hp := hc.prepared henc
      exact ⟨hp.error.trans he, hp.counted.trans hn⟩
  simp only [Session.resetOne, h.status, herror, ↓reduceIte, ne_eq, not_true_eq_false]
  exact hcounted

def SessionKept (a : AgentSlave P) : Label → Prop
  | .reset env => ∀ i t, a.pc = .reset i → a.session.talks[i]? = some t →
      (t.status ≠ .kEnd → ResetKept env false t) ∧
        (i + 1 = a.session.talks.length → a.session.numTalksDone < i ∨ Registers env t)
  | .ready fd event env => ∀ slot t, a.session.driver fd = some slot →
      a.session.talks[slot.ctx.noTalk]? = some t →
        RetryKept env (handleSessionEvent env event slot.ctx a.session t)
  | .removeTimeouts _ => True
  | .cleanTimeout env => ∀ ctx timeouts t, a.pc = .clean (ctx :: timeouts) →
      a.session.talks[ctx.noTalk]? = some t → t.retry ≠ 0 →
        ResetKept env true { t with fd := 0 }

theorem endReset_pc (i : ℕ) (a : AgentSlave P) : expiredCtxs (endReset i a).pc = [] := by
  unfold endReset
  dsimp only
  split_ifs <;> rfl

theorem expiredCtxs_cleanRest (timeouts : List EventCtx) :
    expiredCtxs (.cleanRest timeouts) = timeouts.map EventCtx.id := by
  unfold Pc.cleanRest
  split_ifs with h
  · rw [h]
    rfl
  · rfl

theorem timed_noOrphan (conf : ConfNormal) (env : Env) : Session.Timed noOrphan conf env :=
  .inl trivial

theorem reset_accounted (h : a.Inv noOrphan talks) (hl : Enabled a (.reset env))
    (hkept : SessionKept a (.reset env))
    (hacc : a.session.poolEventCtxs.Accounted (heldCtxs a ++ rest)) :
    (next conf a (.reset env)).session.poolEventCtxs.Accounted
      (heldCtxs (next conf a (.reset env)) ++ rest) := by
  obtain ⟨i, t, hpc, hget, hstart, hnone, hfresh⟩ := h.reset_target hl
  have hu := h.session.unregistered_of_none hget hfresh hnone
  have hw := Session.resetOne_worked hstart (timed_noOrphan conf env) hu
  rw [heldCtxs, hpc, expiredCtxs, List.append_nil] at hacc
  simp only [next, hpc, hget, heldCtxs, endReset_pc, endReset_session, List.append_nil]
  refine accounted_work [] h.session hget ((unregister_of_none hnone).symm ▸ hw) hfresh
    ?_ hacc
  intro held hheld
  rw [Session.ctxIds_of_none hnone] at hheld
  exact Session.resetOne_accounted hstart hu (hkept i t hpc hget).1 hheld

theorem ready_accounted {fd : ℤ} {event : EventsDriver.Event} (h : a.Inv noOrphan talks)
    (hl : Enabled a (.ready fd event env)) (hkept : SessionKept a (.ready fd event env))
    (hacc : a.session.poolEventCtxs.Accounted (heldCtxs a ++ rest)) :
    (next conf a (.ready fd event env)).session.poolEventCtxs.Accounted
      (heldCtxs (next conf a (.ready fd event env)) ++ rest) := by
  obtain ⟨slot, t, hd, hget, rfl, hw, hn, htm, hfresh⟩ := h.ready_target hl
  have hu := h.session.unregistered hget hfresh
  obtain ⟨hwork, heq⟩ := checkTalk_worked event hw hd hn htm (timed_noOrphan conf env) hu
    (h.session.done_lt (List.mem_of_getElem? hget) hw.counted)
  rw [heldCtxs, hl.1, expiredCtxs, List.append_nil] at hacc
  simp only [next, hd, hget, heq, heldCtxs, endSession_session, endSession_pc, hl.1, expiredCtxs,
    List.append_nil]
  refine accounted_work [] h.session hget hwork hfresh ?_ hacc
  intro held hheld
  have hids : ctxIds a.session.driver t = [slot.ctx.id] := by
    rw [ctxIds, hd]
    rfl
  rw [hids] at hheld
  exact checkTalk_accounted event hw hd hn htm hu (hkept slot t hd hget) hheld

theorem cleanTimeout_accounted (h : a.Inv noOrphan talks) (hl : Enabled a (.cleanTimeout env))
    (hkept : SessionKept a (.cleanTimeout env))
    (hacc : a.session.poolEventCtxs.Accounted (heldCtxs a ++ rest)) :
    (next conf a (.cleanTimeout env)).session.poolEventCtxs.Accounted
      (heldCtxs (next conf a (.cleanTimeout env)) ++ rest) := by
  obtain ⟨ctx, timeouts, t, hpc, hget, hw, hnone, hfresh⟩ := h.clean_target hl
  have hu := h.session.unregistered_of_none hget hfresh hnone
  obtain ⟨hwork, heq⟩ := cleanTimeout_worked ctx hw (timed_noOrphan conf env) hu (.inl trivial)
  simp only [next, hpc, hget, heq, heldCtxs, endSession_session, endSession_pc,
    expiredCtxs_cleanRest, List.append_assoc]
  refine accounted_work [ctx.id] h.session hget hwork hfresh ?_ ?_
  · intro held hheld
    rw [Session.ctxIds_of_none hnone] at hheld
    exact expireTalk_accounted ctx hw hu (hkept ctx timeouts t hpc hget) hheld
  · refine hacc.perm ?_
    rw [heldCtxs, hpc, expiredCtxs, List.append_assoc]
    exact List.perm_middle

theorem removeTimeouts_accounted {fds : List ℤ} (h : a.Inv noOrphan talks)
    (hl : Enabled a (.removeTimeouts fds))
    (hacc : a.session.poolEventCtxs.Accounted (heldCtxs a ++ rest)) :
    (next conf a (.removeTimeouts fds)).session.poolEventCtxs.Accounted
      (heldCtxs (next conf a (.removeTimeouts fds)) ++ rest) := by
  have hperm := heldCtxs_removeTimeouts (hl.1 ▸ h.session) fds
  refine hacc.perm (List.Perm.append_right rest ?_)
  rw [heldCtxs, hl.1, expiredCtxs, List.append_nil]
  exact hperm

theorem next_accounted (h : a.Inv noOrphan talks) (hl : Enabled a l) (hkept : SessionKept a l)
    (hacc : a.session.poolEventCtxs.Accounted (heldCtxs a ++ rest)) :
    (next conf a l).session.poolEventCtxs.Accounted (heldCtxs (next conf a l) ++ rest) := by
  cases l with
  | reset env => exact reset_accounted h hl hkept hacc
  | ready fd event env => exact ready_accounted h hl hkept hacc
  | removeTimeouts fds => exact removeTimeouts_accounted h hl hacc
  | cleanTimeout env => exact cleanTimeout_accounted h hl hkept hacc

theorem reset_unsent (h : a.Inv noOrphan talks) (hl : Enabled a (.reset env))
    (hkept : SessionKept a (.reset env)) : (next conf a (.reset env)).sentBack = [] := by
  have hs := h.unsent_of_enabled hl
  obtain ⟨i, t, hpc, hget, hstart, hnone, hfresh⟩ := h.reset_target hl
  have hu := h.session.unregistered_of_none hget hfresh hnone
  have hw := Session.resetOne_worked hstart (timed_noOrphan conf env) hu
  have hlen : ((Session.resetOne conf env a.session t).1.setTalk
      (Session.resetOne conf env a.session t).2).talks.length = a.session.talks.length := by
    rw [Session.setTalk, List.length_set, List.length_map, hw.talks]
  have hdone : a.session.talks.length ≤ i + 1 →
      (Session.resetOne conf env a.session t).1.numTalksDone < a.session.talks.length := by
    intro hle
    have hi := h.loop i hpc
    rw [hw.done]
    rcases (hkept i t hpc hget).2 (by omega) with hlt | hreg
    · split_ifs <;> omega
    · rw [hreg.counted hstart]
      exact h.session.done_lt (List.mem_of_getElem? hget) hstart.counted
  simp only [next, hpc, hget, endReset, hlen]
  split_ifs with hi he
  · exact hs
  · exact absurd he (hdone (by omega)).ne
  · exact hs

theorem endSession_unsent {finish : Bool} {error : ErrorNo} (hs : a.sentBack = [])
    (hf : (endSession finish error a).freed = 0) : (endSession finish error a).sentBack = [] := by
  unfold endSession at hf ⊢
  split_ifs at hf ⊢
  exact hs

theorem next_unsent (h : a.Inv noOrphan talks) (hl : Enabled a l) (hkept : SessionKept a l)
    (hf : (next conf a l).freed = 0) : (next conf a l).sentBack = [] := by
  have hs := h.unsent_of_enabled hl
  cases l with
  | reset env => exact reset_unsent h hl hkept
  | ready fd event env =>
    obtain ⟨slot, t, hd, hget, -⟩ := h.ready_target hl
    simp only [next, hd, hget] at hf ⊢
    exact endSession_unsent hs hf
  | removeTimeouts fds => exact hs
  | cleanTimeout env =>
    obtain ⟨ctx, timeouts, t, hpc, hget, -⟩ := h.clean_target hl
    simp only [next, hpc, hget] at hf ⊢
    exact endSession_unsent hs hf

theorem talkCtxs_eq_nil {s : Session P} (h : ∀ fd, s.driver fd = none) : talkCtxs s = [] :=
  List.flatMap_eq_nil_iff.mpr fun _ _ => Session.ctxIds_of_none (h _)

theorem Inv.heldCtxs_of_freed {A : Tolerance} (h : a.Inv A talks) (hf : a.freed ≠ 0) :
    heldCtxs a = [] := by
  rcases h.replied with ⟨hs, -⟩ | ⟨e, -, hpc, hdone, -⟩
  · exact absurd (h.freed_eq_zero hs) hf
  · rw [heldCtxs, hpc, talkCtxs_eq_nil (h.session.quiet hdone).1]
    rfl

theorem Inv.withPool {A : Tolerance} (h : a.Inv A talks) (hs : a.sentBack = [])
    (ctxs : EventCtxPool) : (a.withPool ctxs).Inv A talks where
  session := { h.session with }
  descends := h.descends
  loop := h.loop
  busy := h.busy
  freed := h.freed
  replied := by
    rcases h.replied with hun | ⟨e, hsent, -⟩
    · exact .inl hun
    · rw [hs] at hsent
      cases hsent

theorem Inv.exists_registered (h : a.Inv noOrphan talks) (hs : a.sentBack = [])
    (hpc : a.pc = .poll) : ∃ fd, (a.session.driver fd).isSome := by
  rcases h.replied with ⟨-, hlt⟩ | ⟨e, hsent, -⟩
  · have hdone := hlt (by rw [hpc]; rfl)
    obtain ⟨t, ht, hcount⟩ : ∃ t ∈ a.session.talks, ¬ t.counted = true := by
      by_contra! hall
      rw [h.session.done, List.countP_eq_length.mpr hall] at hdone
      exact lt_irrefl _ hdone
    have hat := h.session.place t ht
    rw [hpc] at hat
    rcases hat with ⟨-, slot, hd, -⟩ | ⟨-, hset⟩ | ⟨hA, -⟩
    · exact ⟨t.fd, by rw [hd]; rfl⟩
    · exact absurd hset.counted hcount
    · exact hA.elim
  · rw [hs] at hsent
    cases hsent

theorem Inv.mem_heldCtxs_iff {A : Tolerance} (h : a.Inv A talks) (hpc : a.pc = .poll) (id : ℕ) :
    id ∈ heldCtxs a ↔ ∃ fd slot, a.session.driver fd = some slot ∧ slot.ctx.id = id := by
  rw [heldCtxs, hpc, expiredCtxs, List.append_nil, talkCtxs, List.mem_flatMap]
  constructor
  · rintro ⟨t, -, hid⟩
    rw [ctxIds, Option.mem_toList, Option.map_eq_some_iff] at hid
    exact ⟨t.fd, hid⟩
  · rintro ⟨fd, slot, hd, rfl⟩
    obtain ⟨-, t, ht, rfl⟩ := h.session.owned fd slot hd
    refine ⟨t, ht, ?_⟩
    rw [ctxIds, hd]
    exact List.mem_singleton.mpr rfl

theorem heldCtxs_start (ctxs : EventCtxPool) (talks : List (Talk P)) :
    heldCtxs (start ctxs talks) = [] := by
  rw [heldCtxs, start, endReset_pc, endReset_session, talkCtxs_eq_nil fun _ => rfl]
  rfl

theorem inv_start_noOrphan (ctxs : EventCtxPool) (hb : Built talks)
    (hfd : ∀ t ∈ talks, t.fd < 0 → t.status = .kEnd ∨ t.error ≠ .kOk) :
    (start ctxs talks).Inv noOrphan talks := by
  refine inv_start ctxs hb (fun t ht => ?_) (.inl trivial)
  cases Built.startable hb t ht with
  | skipped hbuf hs ha hn => exact .skipped hbuf hs ha hn
  | unencoded hbuf hs he hneg ha hn => exact .unencoded hbuf hs he hneg ha hn
  | ready ho he hs hor htimed ha hn =>
    refine .ready ho he hs (.inr ?_) (.inl trivial) ha hn
    by_contra hneg
    rcases hfd t ht (by omega) with hend | herr
    · rw [hs] at hend
      split_ifs at hend
    · exact herr he

theorem start_unsent (ctxs : EventCtxPool) (hne : talks ≠ []) :
    (start ctxs talks).sentBack = [] ∧ (start ctxs talks).freed = 0 := by
  have hpos : 0 < talks.length := List.length_pos_iff.mpr hne
  simp [start, endReset, hpos]

end steps

end AgentSlave

end Magneto
