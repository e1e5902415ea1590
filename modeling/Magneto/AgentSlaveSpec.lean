import Magneto.SessionSpec

/-!
# What one event does to a working talk

A handler leaves a working talk either registered again, or without its event
and ready for `FinishTalk`: with the connection kept and the category completed,
or with the connection closed and an error code. Together with the specification
of `FinishTalk` this gives the effect of `CheckSession_` and of one iteration of
`CleanTimeouts_`.
-/

namespace Magneto.AgentSlave

variable {P : Protocols} {A : Tolerance}

structure Handling (A : Tolerance) (talk u : Talk P) : Prop where
  noTalk : u.noTalk = talk.noTalk
  fd : u.fd = talk.fd
  pos : 0 < u.fd
  counted : u.counted = false
  error : u.error = .kOk
  objects : u.Objects
  timeo : A.untimed ∨ u.TimeoOk
  moves : talk.Moves A u

structure Untouched (s s' : Session P) : Prop where
  talks : s'.talks = s.talks
  done : s'.numTalksDone = s.numTalksDone
  failure : s'.hasFailure = s.hasFailure
  bugs : .numTalksDone ∈ s'.bugs → .numTalksDone ∈ s.bugs

inductive HandledResult (A : Tolerance) (d : EventsDriver) (talk : Talk P) (h : Handled P) : Prop
  | more (hm : h.more = true) (hfd : h.talk.fd = talk.fd)
      (hd : ∀ fd, fd ≠ talk.fd → h.session.driver fd = d fd)
      (ha : h.talk.Active A h.session.driver)
  | finish (hm : h.more = false) (hfd : h.talk.fd = talk.fd ∨ h.talk.fd = -1)
      (hd : h.session.driver = d.regEventDel talk.fd)
      (hf : Session.Finishing A h.talk (h.talk.error = .kOk))

structure HandledSpec (A : Tolerance) (s : Session P) (talk : Talk P) (h : Handled P) : Prop where
  session : Untouched s h.session
  noTalk : h.talk.noTalk = talk.noTalk
  moves : talk.Moves A h.talk
  result : HandledResult A s.driver talk h

theorem errorHandle_spec {s s₀ : Session P} {talk u : Talk P} {error : ErrorNo}
    (h : Handling A talk u) (hs : Untouched s₀ s)
    (hd : s.driver.regEventDel talk.fd = s₀.driver.regEventDel talk.fd)
    (hc : u.attempt.passed u.category = decide (error = .kOk)) :
    HandledSpec A s₀ talk (errorHandle s u error) := by
  rw [← h.fd] at hd
  have hd : s.driver.regEventDel u.fd = s₀.driver.regEventDel talk.fd := by rw [hd, h.fd]
  by_cases he : error = .kOk
  · subst he
    have hm : talk.Moves A { u with error := .kOk } :=
      h.moves.trans (Talk.Moves.same ⟨rfl, rfl, rfl, rfl, rfl, rfl, rfl, rfl⟩ fun _ => h.error)
    have heq : errorHandle s u .kOk = ⟨false, { s with driver := s.driver.regEventDel u.fd },
        { u with error := .kOk }⟩ := rfl
    rw [heq]
    refine ⟨⟨hs.talks, hs.done, hs.failure, hs.bugs⟩, h.noTalk, hm, ?_⟩
    exact .finish rfl (.inl h.fd) hd {
      counted := h.counted, timeo := h.timeo
      objects := ⟨h.objects.buf, h.objects.write, h.objects.read⟩
      succeeded := fun _ => ⟨rfl, h.pos, by simpa using hc⟩
      failed := by simp
      expired := by simp }
  · have hm : talk.Moves A { u with error := error, fd := -1 } :=
      h.moves.trans (Talk.Moves.same ⟨rfl, rfl, rfl, rfl, rfl, rfl, rfl, rfl⟩ fun _ => h.error)
    have heq : errorHandle s u error = ⟨false,
        Session.close { s with driver := s.driver.regEventDel u.fd } u.fd,
        { u with error := error, fd := -1 }⟩ := by
      simp [errorHandle, he]
    rw [heq]
    refine ⟨⟨hs.talks, hs.done, hs.failure, hs.bugs⟩, h.noTalk, hm, ?_⟩
    exact .finish rfl (.inr rfl) hd {
      counted := h.counted, timeo := h.timeo
      objects := ⟨h.objects.buf, h.objects.write, h.objects.read⟩
      succeeded := by simp [he]
      failed := fun _ => ⟨rfl, by simpa [he] using hc⟩
      expired := fun _ h => absurd h he }

theorem checkTimeout_noTalk (now timeleft : ℤ) (ctx : EventCtx) :
    (ctx.checkTimeout now timeleft).2.noTalk = ctx.noTalk := by
  unfold EventCtx.checkTimeout
  dsimp only
  split_ifs <;> rfl

theorem waitMore_spec {env : Env} {timeleft : ℤ} {direction : EventsDriver.Direction}
    {slot : EventsDriver.Slot} {s s₀ : Session P} {talk u : Talk P} (h : Handling A talk u)
    (hw : u.Working A) (hs : Untouched s₀ s) (hdrv : s.driver = s₀.driver)
    (hslot : s₀.driver talk.fd = some slot) (hn : slot.ctx.noTalk = talk.noTalk)
    (ht : A.untimed ∨ slot.expireTimeMs.isSome) :
    HandledSpec A s₀ talk (waitMore env timeleft direction slot.ctx s u) := by
  have hc : ∀ e : ErrorNo, e ≠ .kOk →
      u.attempt.passed u.category = decide (e = .kOk) := by
    intro e he
    rw [hw.not_passed]
    simp [he]
  have hdel : s.driver.regEventDel talk.fd = s₀.driver.regEventDel talk.fd := by rw [hdrv]
  unfold waitMore
  dsimp only
  split_ifs with hto hreg
  · exact errorHandle_spec h hs hdel (hc _ (by simp))
  · cases hok : env.modOk with
    | false => simp [EventsDriver.regEventMod, hok] at hreg
    | true =>
      simp only [EventsDriver.regEventMod, ↓reduceIte]
      refine ⟨⟨hs.talks, hs.done, hs.failure, hs.bugs⟩, h.noTalk, h.moves, ?_⟩
      refine .more rfl h.fd ?_ ⟨hw, _, Function.update_self _ _ _, ?_, ?_⟩
      · intro fd hfd
        rw [hdrv, h.fd]
        exact Function.update_of_ne hfd _ _
      · exact (checkTimeout_noTalk _ _ _).trans (hn.trans h.noTalk.symm)
      · refine ht.imp_right fun ht => ?_
        split_ifs
        · rfl
        · rw [hdrv, h.fd, hslot]
          exact ht
  · cases hok : env.modOk with
    | true => simp [EventsDriver.regEventMod, hok] at hreg
    | false =>
      simp only [EventsDriver.regEventMod, Bool.false_eq_true, ↓reduceIte]
      refine errorHandle_spec h ⟨hs.talks, hs.done, hs.failure, hs.bugs⟩ ?_ (hc _ (by simp))
      rw [hdrv, h.fd]
      simp [EventsDriver.regEventDel]

theorem Handling.of_working {talk u : Talk P} (hw : u.Working A) (hn : u.noTalk = talk.noTalk)
    (hfd : u.fd = talk.fd) (hm : talk.Moves A u) : Handling A talk u :=
  ⟨hn, hfd, hw.fd, hw.counted, hw.error, hw.objects, hw.timeo, hm⟩

section handlers

variable {env : Env} {slot : EventsDriver.Slot} {s : Session P} {talk : Talk P}

theorem handleSessionEventConn_spec (hw : talk.Working A) (ha : talk.attempt = .fresh)
    (hslot : s.driver talk.fd = some slot) (hn : slot.ctx.noTalk = talk.noTalk)
    (ht : A.untimed ∨ slot.expireTimeMs.isSome) :
    HandledSpec A s talk (handleSessionEventConn env slot.ctx s talk) := by
  have hu : (connTalk talk).Working A := {
    error := hw.error, fd := hw.fd, counted := hw.counted, decoded := hw.decoded
    broken := hw.broken
    objects := ⟨hw.objects.buf, hw.objects.write, hw.objects.read⟩
    timeo := hw.timeo
    stage := by
      by_cases hk : talk.category = .kReadOnly
      · exact .read (by simp [connTalk, hk]) (by simp [connTalk, hk]) (by simp [connTalk, hk])
      · exact .write (by simp [connTalk, hk]) hk (by simp [connTalk, ha, Talk.Attempt.fresh]) }
  have hm : talk.Moves A (connTalk talk) :=
    .same ⟨rfl, rfl, rfl, rfl, rfl, rfl, rfl, rfl⟩ fun _ => hw.error
  exact waitMore_spec (.of_working hu rfl rfl hm) hu ⟨rfl, rfl, rfl, id⟩ rfl hslot hn ht

theorem readTalk_objects {o : ReaderObj P} (inp : IOHelper.SockIn) (h : talk.Objects) :
    (readTalk talk o inp).Objects := ⟨h.buf, h.write, fun _ => rfl⟩

theorem handleSessionEventRead_spec (hw : talk.Working A) (hs : talk.status = .kRead)
    (hc : talk.category ≠ .kWriteOnly)
    (hwr : talk.category = .kWriteAndRead → talk.attempt.written = true)
    (hslot : s.driver talk.fd = some slot) (hn : slot.ctx.noTalk = talk.noTalk)
    (ht : A.untimed ∨ slot.expireTimeMs.isSome) :
    HandledSpec A s talk (handleSessionEventRead env slot.ctx s talk) := by
  obtain ⟨o, ho⟩ := Option.isSome_iff_exists.mp (hw.objects.read hc)
  have hsame : Untouched s s := ⟨rfl, rfl, rfl, id⟩
  simp only [handleSessionEventRead, ho]
  by_cases h0 : (P.read o.val env.sockIn).ret = 0
  · -- the whole reply is there: the talk ends with the outcome of `Decode`
    rw [if_pos h0]
    have hm := Talk.Move.decode (A := A) env.sockIn ho hw.decoded hw.broken h0
    refine errorHandle_spec (A := A) ⟨rfl, rfl, hw.fd, hw.counted, hw.error,
      ⟨hw.objects.buf, hw.objects.write, fun _ => rfl⟩, hw.timeo, .single hm⟩ hsame rfl ?_
    have hpassed : ∀ d, (decodeTalk (readTalk talk o env.sockIn) o d).attempt.passed
        talk.category = d.1 := by
      intro d
      cases hk : talk.category with
      | kWriteOnly => exact absurd hk hc
      | kReadOnly => rfl
      | kWriteAndRead => simp [Talk.Attempt.passed, decodeTalk, readTalk, hwr hk]
    refine (hpassed _).trans ?_
    cases (P.decode (P.read o.val env.sockIn).reader).1 <;> simp
  · rw [if_neg h0]
    have hmove : talk.Moves A (readTalk talk o env.sockIn) :=
      .single (.read env.sockIn ho hw.decoded hw.broken h0)
    have hnot : (readTalk talk o env.sockIn).attempt.passed
        (readTalk talk o env.sockIn).category = false := by
      show (readTalk talk o env.sockIn).attempt.passed talk.category = false
      have := hw.not_passed
      cases hk : talk.category <;> simpa [hk, Talk.Attempt.passed, readTalk] using this
    have hh : Handling A talk (readTalk talk o env.sockIn) :=
      ⟨rfl, rfl, hw.fd, hw.counted, hw.error, readTalk_objects env.sockIn hw.objects, hw.timeo,
        hmove⟩
    split_ifs with hpos
    · have hu : (readTalk talk o env.sockIn).Working A := {
        error := hw.error, fd := hw.fd, counted := hw.counted, decoded := hw.decoded
        broken := by simp [readTalk, hpos.le]
        objects := readTalk_objects env.sockIn hw.objects
        timeo := hw.timeo
        stage := .read hs hc hwr }
      exact waitMore_spec hh hu hsame rfl hslot hn ht
    · exact errorHandle_spec hh hsame rfl (by simpa using hnot)

theorem turnToRead_spec {u : Talk P} (hh : Handling A talk u) (hd : u.attempt.decoded = false)
    (hb : u.attempt.broken = false) (hc : u.category = .kWriteAndRead)
    (hwr : u.attempt.written = true)
    (hslot : s.driver talk.fd = some slot) (hn : slot.ctx.noTalk = talk.noTalk)
    (ht : A.untimed ∨ slot.expireTimeMs.isSome) :
    HandledSpec A s talk (turnToRead env slot.ctx s u) := by
  unfold turnToRead
  dsimp only
  have hu : Talk.Working A { u with status := .kRead } := {
    error := hh.error, fd := hh.pos, counted := hh.counted, decoded := hd, broken := hb
    timeo := hh.timeo
    objects := ⟨hh.objects.buf, hh.objects.write, hh.objects.read⟩
    stage := .read rfl (by simp [hc]) fun _ => hwr }
  have hm : talk.Moves A { u with status := .kRead } :=
    hh.moves.trans (Talk.Moves.same ⟨rfl, rfl, rfl, rfl, rfl, rfl, rfl, rfl⟩ id)
  split_ifs with hto hlate
  · refine errorHandle_spec hh ⟨rfl, rfl, rfl, id⟩ rfl ?_
    simp [hc, Talk.Attempt.passed, hd]
  · exact waitMore_spec (.of_working hu hh.noTalk hh.fd hm) hu
      ⟨rfl, rfl, rfl, by simp [Session.bug]⟩ rfl hslot hn ht
  · exact waitMore_spec (.of_working hu hh.noTalk hh.fd hm) hu ⟨rfl, rfl, rfl, id⟩ rfl hslot hn ht

theorem handleSessionEventWrite_spec (hw : talk.Working A) (hs : talk.status = .kWrite)
    (hc : talk.category ≠ .kReadOnly) (hwr : talk.attempt.written = false)
    (hslot : s.driver talk.fd = some slot) (hn : slot.ctx.noTalk = talk.noTalk)
    (ht : A.untimed ∨ slot.expireTimeMs.isSome) :
    HandledSpec A s talk (handleSessionEventWrite env slot.ctx s talk) := by
  obtain ⟨o, ho⟩ := Option.isSome_iff_exists.mp (hw.objects.write hc)
  have hsame : Untouched s s := ⟨rfl, rfl, rfl, id⟩
  simp only [handleSessionEventWrite, ho]
  have hh : Handling A talk (writeTalk talk o env.sockOut) :=
    ⟨rfl, rfl, hw.fd, hw.counted, hw.error, ⟨hw.objects.buf, fun _ => rfl, hw.objects.read⟩,
      hw.timeo, .single (.write env.sockOut ho hwr hw.broken hw.error)⟩
  by_cases h0 : (P.write o.val env.sockOut).ret = 0
  · have hwritten : (writeTalk talk o env.sockOut).attempt.written = true := by
      simp [writeTalk, h0]
    have hbroken : (writeTalk talk o env.sockOut).attempt.broken = false := by
      simp [writeTalk, h0]
    rw [if_pos h0]
    split_ifs with hk hbug
    · exact turnToRead_spec hh hw.decoded hbroken hk hwritten hslot hn ht
    · refine absurd ?_ hbug
      cases hcat : talk.category with
      | kWriteOnly => rfl
      | kReadOnly => exact absurd hcat hc
      | kWriteAndRead => exact absurd hcat hk
    · refine errorHandle_spec hh hsame rfl ?_
      rw [ne_eq, not_not] at hbug
      have hcat : (writeTalk talk o env.sockOut).category = .kWriteOnly := hbug
      simp [hcat, Talk.Attempt.passed, hwritten]
  · rw [if_neg h0]
    have hwritten : (writeTalk talk o env.sockOut).attempt.written = false := by
      simp [writeTalk, h0]
    have hnot : (writeTalk talk o env.sockOut).attempt.passed
        (writeTalk talk o env.sockOut).category = false := by
      show (writeTalk talk o env.sockOut).attempt.passed talk.category = false
      cases hcat : talk.category with
      | kWriteOnly => exact hwritten
      | kReadOnly => exact absurd hcat hc
      | kWriteAndRead => simp [Talk.Attempt.passed, hwritten]
    split_ifs with hpos
    · have hu : (writeTalk talk o env.sockOut).Working A := {
        error := hw.error, fd := hw.fd, counted := hw.counted, decoded := hw.decoded
        broken := by simp [writeTalk, hpos.le]
        objects := hh.objects
        timeo := hw.timeo
        stage := .write hs hc hwritten }
      exact waitMore_spec hh hu hsame rfl hslot hn ht
    · exact errorHandle_spec hh hsame rfl (by simpa using hnot)

theorem handleSessionEvent_spec (env : Env) (event : EventsDriver.Event) (hw : talk.Working A)
    (hslot : s.driver talk.fd = some slot) (hn : slot.ctx.noTalk = talk.noTalk)
    (ht : A.untimed ∨ slot.expireTimeMs.isSome) :
    HandledSpec A s talk (handleSessionEvent env event slot.ctx s talk) := by
  unfold handleSessionEvent
  split_ifs with hev
  · exact errorHandle_spec (.of_working hw rfl rfl .refl) ⟨rfl, rfl, rfl, id⟩ rfl
      (by simpa using hw.not_passed)
  · rcases hw.stage with ⟨hs, ha⟩ | ⟨hs, hc, hwr⟩ | ⟨hs, hc, hwr⟩
    · rw [hs]
      exact handleSessionEventConn_spec hw ha hslot hn ht
    · rw [hs]
      exact handleSessionEventWrite_spec hw hs hc hwr hslot hn ht
    · rw [hs]
      exact handleSessionEventRead_spec hw hs hc hwr hslot hn ht

end handlers

open Session (Worked Unregistered Timed Finishing)

def unregister (s : Session P) (fd : ℤ) : Session P :=
  { s with driver := s.driver.regEventDel fd }

theorem unregister_of_none {s : Session P} {fd : ℤ} (h : s.driver fd = none) :
    unregister s fd = s := by
  unfold unregister
  rw [EventsDriver.regEventDel_of_none h]

theorem worked_of_handled {env : Env} {s s₁ s' : Session P} {talk v u : Talk P}
    (hs : Untouched s s₁) (hd : s₁.driver = s.driver.regEventDel talk.fd)
    (hn : v.noTalk = talk.noTalk) (hfd : v.fd = talk.fd ∨ v.fd = -1) (hm : talk.Moves A v)
    (hw : Worked A env s₁ v s' u) : Worked A env (unregister s talk.fd) talk s' u where
  talks := hw.talks.trans hs.talks
  noTalk := hw.noTalk.trans hn
  fd := by
    rcases hw.fd with h | h
    · rcases hfd with h' | h'
      · exact .inl (h.trans h')
      · exact .inr (.inl (by omega))
    · exact .inr h
  frame := fun fd h => (hw.frame fd h).trans (congrFun hd fd)
  done := by rw [hw.done, hs.done]; rfl
  bugs := fun hlt hb => hs.bugs (hw.bugs (by rw [hs.done, hs.talks]; exact hlt) hb)
  failure := fun hf => ⟨hs.failure ▸ (hw.failure hf).1, (hw.failure hf).2⟩
  started := hw.started
  moves := hm.trans hw.moves

theorem unregistered_of_handled {env : Env} {d d' : EventsDriver} {talk v : Talk P}
    (hu : Unregistered env (d.regEventDel talk.fd) talk) (hd : d' = d.regEventDel talk.fd)
    (hfd : v.fd = talk.fd ∨ v.fd = -1) : Unregistered env d' v := by
  subst hd
  refine ⟨hu.nonpos, ?_, hu.new⟩
  rcases hfd with h | h
  · rw [h]
    exact hu.old
  · rw [h]
    exact hu.nonpos _ (by simp)

def checkTalk (conf : ConfNormal) (env : Env) (event : EventsDriver.Event) (ctx : EventCtx)
    (s : Session P) (talk : Talk P) : Session P × Talk P :=
  let h := handleSessionEvent env event ctx s talk
  if h.more then (h.session, h.talk)
  else
    let r := Session.finishTalk conf env (h.talk.error = .kOk) (freeEventCtx h.session ctx) h.talk
    (r.1, r.2.1)

/-- The part of `CleanTimeouts_` that ends a talk. -/
def expireTalk (conf : ConfNormal) (env : Env) (s : Session P) (talk : Talk P) :
    Session P × Talk P :=
  let r := Session.finishTalk conf env false (s.close talk.fd) { talk with fd := -1 }
  (r.1, r.2.1)

theorem checkTalk_worked {conf : ConfNormal} {env : Env} (event : EventsDriver.Event)
    {slot : EventsDriver.Slot} {s : Session P} {talk : Talk P} (hw : talk.Working A)
    (hslot : s.driver talk.fd = some slot) (hn : slot.ctx.noTalk = talk.noTalk)
    (ht : A.untimed ∨ slot.expireTimeMs.isSome) (henv : Timed A conf env)
    (hu : Unregistered env (s.driver.regEventDel talk.fd) talk)
    (hlt : s.numTalksDone < s.talks.length) :
    let r := checkTalk conf env event slot.ctx s talk
    Worked A env (unregister s talk.fd) talk r.1 r.2 ∧
      checkSession conf env event slot.ctx s talk =
        (r.1.setTalk r.2, decide (r.1.numTalksDone = r.1.talks.length)) := by
  have h := handleSessionEvent_spec env event hw hslot hn ht
  unfold checkSession checkTalk
  generalize handleSessionEvent env event slot.ctx s talk = r at h ⊢
  dsimp only
  cases h.result with
  | more hm hfd hd ha =>
    rw [if_pos hm, if_pos hm]
    refine ⟨?_, ?_⟩
    · exact {
        talks := h.session.talks, noTalk := h.noTalk, fd := .inl hfd
        frame := by
          intro fd hne
          rw [hfd] at hne
          rw [hd fd hne]
          exact (s.driver.regEventDel_of_ne hne).symm
        done := by simp [ha.1.counted, h.session.done, unregister]
        bugs := fun _ => h.session.bugs
        failure := fun hf => ⟨h.session.failure ▸ hf, by simp [ha.1.counted]⟩
        started := .active ha
        moves := h.moves }
    · have hne : r.session.numTalksDone ≠ r.session.talks.length := by
        rw [h.session.done, h.session.talks]
        omega
      simp [hne]
  | finish hm hfd hd hf =>
    have hs₁ : Untouched s (freeEventCtx r.session slot.ctx) :=
      ⟨h.session.talks, h.session.done, h.session.failure, h.session.bugs⟩
    have hwork := Session.finishTalk_worked (s := freeEventCtx r.session slot.ctx) hf henv
      (unregistered_of_handled hu hd hfd)
    rw [if_neg (by simp [hm]), if_neg (by simp [hm])]
    exact ⟨worked_of_handled hs₁ hd h.noTalk hfd h.moves hwork, rfl⟩

theorem cleanTimeout_worked {conf : ConfNormal} {env : Env} (ctx : EventCtx) {s : Session P}
    {talk : Talk P} (hw : talk.Working A) (henv : Timed A conf env)
    (hu : Unregistered env s.driver talk) (hexp : A.expired ∨ talk.retry ≠ 0) :
    let r := expireTalk conf env s talk
    Worked A env (unregister s talk.fd) talk (freeEventCtx r.1 ctx) r.2 ∧
      cleanTimeout conf env ctx s talk =
        ((freeEventCtx r.1 ctx).setTalk r.2, decide (r.1.numTalksDone = r.1.talks.length)) := by
  have hd : s.driver = s.driver.regEventDel talk.fd :=
    (EventsDriver.regEventDel_of_none hu.old).symm
  have hf : Finishing A { talk with fd := -1 } false := {
    counted := hw.counted
    objects := ⟨hw.objects.buf, hw.objects.write, hw.objects.read⟩
    timeo := hw.timeo
    succeeded := by simp
    failed := fun _ => ⟨rfl, hw.not_passed⟩
    expired := fun _ _ => hexp }
  have hwork := Session.finishTalk_worked (s := s.close talk.fd) hf henv
    ⟨hu.nonpos, hu.nonpos _ (by simp), hu.new⟩
  have hm : talk.Moves A { talk with fd := -1 } := .same ⟨rfl, rfl, rfl, rfl, rfl, rfl, rfl, rfl⟩ id
  have hs : Untouched s (s.close talk.fd) := ⟨rfl, rfl, rfl, id⟩
  have h := worked_of_handled (v := { talk with fd := -1 }) hs hd rfl (.inr rfl) hm hwork
  exact ⟨⟨h.talks, h.noTalk, h.fd, h.frame, h.done, h.bugs, h.failure, h.started, h.moves⟩, rfl⟩

end Magneto.AgentSlave
