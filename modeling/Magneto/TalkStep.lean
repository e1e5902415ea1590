import Magneto.TalkSim

/-!
# Everything a step can do to a talk

The session code on one talk, case by case: what `ResetTalk_`, a handler and
`FinishTalk` make of the talk, its event and the logs. A `Step` puts these
together for each event a talk can see, and every step of the machine of a talk
is one. What holds of a talk over whole runs is read off these cases.
-/

namespace Magneto

variable {P : Protocols}

open EventsDriver (Slot Direction)

namespace Talk

def report (env : Env) (t : Talk P) (succ : Bool) : List (Remote × Bool) :=
  (t.remoteIn env.tmpRemotes).toList.map (·, succ)

def blamed (env : Env) (t : Talk P) : Talk P :=
  { t with
    failRemotes := t.failRemotes ++ (t.remoteIn env.tmpRemotes).toList
    counted := true }

def again (env : Env) (t : Talk P) : Talk P :=
  { t.blamed env with
    retry := t.retry - 1, fd := 0, error := .kOk, attempt := .fresh, past := t.past ++ [t.attempt] }

def settle (t : Talk P) : Talk P := { t with counted := decide (t.error ≠ .kOk) }

theorem settle_of_counted {t : Talk P} (h : t.counted = decide (t.error ≠ .kOk)) :
    t.settle = t := by
  rw [settle, ← h]

end Talk

namespace Session

inductive Opened (conf : ConfNormal) (env : Env) (isRetry : Bool) (talk : Talk P) :
    Option Slot → Log → Talk P → Prop
  | noFd (h : talk.fd = 0) (hfd : ¬ 0 < env.getFd.fd) :
      Opened conf env isRetry talk none ⟨[], [], [], true⟩
        { talk with
          remote := some env.getFd.remote, peer := env.getFd.remote.deref env.getFd.tmpRemotes
          fd := -1, error := .kBroken }
  | invalid (h : talk.fd < 0) :
      Opened conf env isRetry talk none ⟨[], [], [.invalidFd], true⟩ talk
  | encode (tmp : List Remote) (t u : Talk P) (hc : Connected env talk tmp t)
      (he : Encoded isRetry t false u) :
      Opened conf env isRetry talk none ⟨[], [], [], true⟩ { u with error := .kEncode }
  | late (tmp : List Remote) (t u : Talk P) (hc : Connected env talk tmp t)
      (he : Encoded isRetry t true u)
      (ht : u.endtimeMs ≤ env.now) :
      Opened conf env isRetry talk none ⟨[], [], [], true⟩ { u with error := .kTimeout }
  | refused (tmp : List Remote) (t u : Talk P) (hc : Connected env talk tmp t)
      (he : Encoded isRetry t true u)
      (hok : env.addOk = false) :
      Opened conf env isRetry talk none ⟨[], [u.fd], [], true⟩
        { u with fd := -1, error := .kOther }
  | registered (tmp : List Remote) (t u : Talk P) (hc : Connected env talk tmp t)
      (he : Encoded isRetry t true u)
      (ht : env.now < u.endtimeMs) (hok : env.addOk = true) :
      Opened conf env isRetry talk (some (newSlot conf env tmp 0 u)) .empty u

theorem Opened.carried {conf : ConfNormal} {env : Env} {isRetry : Bool} {talk u : Talk P}
    {o : Option Slot} {δ : Log} (h : Opened conf env isRetry talk o δ u) : Carried talk u := by
  cases h with
  | noFd => exact .of_eq talk _ _ _ _
  | invalid => exact .of_eq talk _ _ _ _
  | encode tmp t u hc he => exact { (hc.prepared he).toCarried with }
  | late tmp t u hc he => exact { (hc.prepared he).toCarried with }
  | refused tmp t u hc he => exact { (hc.prepared he).toCarried with }
  | registered tmp t u hc he => exact (hc.prepared he).toCarried

structure Left (s : Session P) (r : Session P × Talk P) (o : Option Slot) (δ : Log) (u : Talk P) :
    Prop where
  talk : r.2 = u
  slot : (r.1.driver u.fd).map Slot.anon = o
  logs : r.1.logs = s.logs.append δ

theorem Left.after {s s' : Session P} {r : Session P × Talk P} {o : Option Slot} {δ δ' : Log}
    {u : Talk P} (h : Left s' r o δ' u) (hlogs : s'.logs = s.logs.append δ) :
    Left s r o (δ.append δ') u :=
  ⟨h.talk, h.slot, by rw [h.logs, hlogs, Log.append_assoc]⟩

theorem resetTalk_opened (conf : ConfNormal) (env : Env) (isRetry : Bool) {s : Session P}
    {talk : Talk P} (hb : talk.buf.isSome) (hd : ∀ fd, s.driver fd = none) :
    ∃ o δ u, Left s (resetTalk conf env isRetry s talk) o δ u ∧
      Opened conf env isRetry talk o δ u := by
  have hcases := resetTalk_cases conf env isRetry s talk
  generalize resetTalk conf env isRetry s talk = r at hcases ⊢
  cases hcases with
  | noFd h hfd =>
    exact ⟨_, _, _, ⟨rfl, by simp [fail, hd], by simp [logs, fail, Log.append]⟩, .noFd h hfd⟩
  | invalid h =>
    exact ⟨_, _, _, ⟨rfl, by simp [fail, bug, hd], by simp [logs, fail, bug, Log.append]⟩,
      .invalid h⟩
  | noBuf tmp t hc hnone =>
    rw [hc.same_objects.2.1] at hnone
    simp [hnone] at hb
  | encode tmp t u hc he =>
    exact ⟨_, _, _, ⟨rfl, by simp [fail, hd], by simp [logs, fail, Log.append]⟩,
      .encode tmp t u hc he⟩
  | late tmp t u hc he ht =>
    exact ⟨_, _, _, ⟨rfl, by simp [fail, hd], by simp [logs, fail, Log.append]⟩,
      .late tmp t u hc he ht⟩
  | refused tmp t u hc he hok =>
    refine ⟨_, _, _, ⟨rfl, ?_, by simp [logs, fail, close, Log.append]⟩, .refused tmp t u hc he hok⟩
    simp [fail, close, EventsDriver.regEventDel, Function.update_apply, hd]
  | registered tmp t u hc he ht hok =>
    refine ⟨_, _, _, ⟨rfl, ?_, by simp [logs, Log.append, Log.empty]⟩,
      .registered tmp t u hc he ht hok⟩
    simp only [Function.update_self, Option.map_some]
    rfl

inductive Finished (conf : ConfNormal) (env : Env) (talk : Talk P) :
    Bool → Option Slot → Log → Talk P → Prop
  | succeeded : Finished conf env talk true none ⟨talk.report env true, [], [], false⟩
      { talk with counted := true }
  | failed (hr : talk.retry = 0) :
      Finished conf env talk false none ⟨talk.report env false, [], [], true⟩ (talk.blamed env)
  | again {o : Option Slot} {δ : Log} {u : Talk P} (hr : talk.retry ≠ 0)
      (h : Opened conf env true (talk.again env) o δ u) :
      Finished conf env talk false o
        (Log.append ⟨talk.report env false, [], [], decide (u.error ≠ .kOk)⟩ δ) u.settle

theorem reportStatus_report (env : Env) (succ : Bool) (s : Session P) (talk : Talk P) :
    reportStatus env succ s { talk with counted := true } =
      ({ s with reports := s.reports ++ talk.report env succ },
        if succ then { talk with counted := true } else (talk.blamed env)) := by
  have hcounted : Talk.remoteIn env.tmpRemotes { talk with counted := true } =
      talk.remoteIn env.tmpRemotes := rfl
  rw [reportStatus, hcounted]
  cases hr : talk.remoteIn env.tmpRemotes <;> cases succ <;> simp [Talk.report, Talk.blamed, hr]

theorem retryTalk_opened (conf : ConfNormal) (env : Env) {s : Session P} {talk : Talk P}
    (hb : talk.buf.isSome) (hfd : ¬ 0 < talk.fd) (hd : ∀ fd, s.driver fd = none) :
    ∃ o δ u, Left s (retryTalk conf env s (talk.blamed env)) o
        (Log.append ⟨[], [], [], decide (u.error ≠ .kOk)⟩ δ) u.settle ∧
      Opened conf env true (talk.again env) o δ u := by
  have hagain : (talk.again env).buf.isSome := hb
  obtain ⟨o, δ, u, ⟨htalk, hslot, hlogs⟩, ho⟩ := resetTalk_opened conf env true hagain hd
  have hcounted : u.counted = true := ho.carried.counted
  refine ⟨o, δ, u, ?_, ho⟩
  have heq : retryTalk conf env s (talk.blamed env) =
      (if (resetTalk conf env true s (talk.again env)).2.error = .kOk then
        ({ (resetTalk conf env true s (talk.again env)).1 with
            numTalksDone := (resetTalk conf env true s (talk.again env)).1.numTalksDone - 1 },
          { (resetTalk conf env true s (talk.again env)).2 with counted := false })
      else ((resetTalk conf env true s (talk.again env)).1.fail,
        (resetTalk conf env true s (talk.again env)).2)) := by
    simp only [retryTalk, Talk.blamed, hfd, ↓reduceIte]
    rfl
  rw [heq, htalk]
  generalize (resetTalk conf env true s (talk.again env)).1 = s' at hslot hlogs ⊢
  split_ifs with he
  · refine ⟨by simp [Talk.settle, he], hslot, ?_⟩
    have : ({ s' with numTalksDone := s'.numTalksDone - 1 } : Session P).logs = s'.logs := rfl
    rw [this, hlogs]
    simp [Log.append, he]
  · refine ⟨?_, hslot, ?_⟩
    · exact (Talk.settle_of_counted (by simp [hcounted, he])).symm
    · have : s'.fail.logs = s'.logs.append ⟨[], [], [], true⟩ := by
        simp [logs, fail, Log.append]
      rw [this, hlogs]
      simp [Log.append, he]

theorem finishTalk_finished (conf : ConfNormal) (env : Env) (succ : Bool) {s : Session P}
    {talk : Talk P} (hb : talk.buf.isSome) (hfd : succ = false → ¬ 0 < talk.fd)
    (hd : ∀ fd, s.driver fd = none) (hlt : s.numTalksDone < s.talks.length) :
    ∃ o δ u, Left s ((finishTalk conf env succ s talk).1, (finishTalk conf env succ s talk).2.1)
        o δ u ∧ Finished conf env talk succ o δ u := by
  have hcount : ¬ s.talks.length < s.numTalksDone + 1 := by omega
  simp only [finishTalk, hcount, ↓reduceIte, reportStatus_report]
  cases succ with
  | true =>
    exact ⟨_, _, _, ⟨rfl, by simp [hd], by simp [logs, Log.append]⟩, .succeeded⟩
  | false =>
    have hretry : (talk.blamed env).retry = talk.retry := rfl
    simp only [Bool.false_eq_true, ↓reduceIte, hretry]
    by_cases hr : talk.retry = 0
    · rw [if_neg (not_not.mpr hr)]
      exact ⟨_, _, _, ⟨rfl, by simp [fail, hd], by simp [logs, fail, Log.append]⟩, .failed hr⟩
    · rw [if_pos hr]
      obtain ⟨o, δ, u, ⟨htalk, hslot, hlogs⟩, ho⟩ := retryTalk_opened conf env
        (s := { s with
          numTalksDone := s.numTalksDone + 1, reports := s.reports ++ talk.report env false })
        hb (hfd rfl) hd
      refine ⟨_, _, _, ⟨htalk, hslot, hlogs.trans ?_⟩, .again hr ho⟩
      simp [logs, Log.append]

end Session

namespace EventsDriver.Slot

def renew (env : Env) (timeleftMs : ℤ) (direction : Direction) (slot : Slot) : Slot :=
  let ctx := (slot.ctx.checkTimeout env.now timeleftMs).2
  ⟨ctx.anon, direction,
    if 0 ≤ Word.narrow ctx.timeleftMs then some (env.now + Word.narrow ctx.timeleftMs)
    else slot.expireTimeMs⟩

def InTime (env : Env) (slot : Slot) : Prop := env.now - slot.ctx.lasttimeMs < slot.ctx.timeleftMs

end EventsDriver.Slot

namespace AgentSlave

open Session (Left)

/-- A handler changes nothing in a talk but its status and its conversation. -/
def Heard (talk u : Talk P) : Prop :=
  ∃ status protocolWrite protocolRead attempt, u = { talk with
    status := status, protocolWrite := protocolWrite, protocolRead := protocolRead
    attempt := attempt }

theorem Heard.refl (talk : Talk P) : Heard talk talk := ⟨_, _, _, _, rfl⟩

def Limits (env : Env) (talk : Talk P) (timeleftMs : ℤ) : Prop :=
  timeleftMs = 0 ∨ timeleftMs = min (talk.endtimeMs - env.now) (rtimeoMs env talk) ∨
    timeleftMs = min (talk.endtimeMs - env.now) (wtimeoMs env talk)

def Fired (env : Env) (slot : Slot) (talk : Talk P) (bugs : List Bug) : Prop :=
  bugs = [] ∨ bugs = [.endtime] ∧ talk.endtimeMs ≤ env.now ∧ slot.InTime env

inductive Served (env : Env) (slot : Slot) (talk : Talk P) :
    Bool → Option Slot → Log → Talk P → Prop
  | wait {u : Talk P} {timeleftMs : ℤ} {direction : Direction} {bugs : List Bug}
      (hu : Heard talk u) (hl : Limits env talk timeleftMs) (ht : slot.InTime env)
      (hd : direction = if u.status = .kRead then .kIn else .kOut)
      (hb : Fired env slot talk bugs) :
      Served env slot talk true (some (slot.renew env timeleftMs direction))
        ⟨[], [], bugs, false⟩ u
  | finish {u : Talk P} (hu : Heard talk u) :
      Served env slot talk false none .empty { u with error := .kOk }
  | fail {u : Talk P} {error : ErrorNo} {bugs : List Bug} (hu : Heard talk u)
      (he : error ≠ .kOk) (hb : Fired env slot talk bugs) :
      Served env slot talk false none ⟨[], [talk.fd], bugs, false⟩
        { u with error := error, fd := -1 }

def Serves (env : Env) (slot : Slot) (s : Session P) (talk : Talk P) (h : Handled P) : Prop :=
  ∃ o δ u, Left s (h.session, h.talk) o δ u ∧ Served env slot talk h.more o δ u

variable {env : Env} {slot : Slot} {s s' : Session P} {talk u : Talk P}

theorem Heard.fd (h : Heard talk u) : u.fd = talk.fd := by
  obtain ⟨_, _, _, _, rfl⟩ := h
  rfl

theorem errorHandle_serves {error : ErrorNo} (hu : Heard talk u) {bugs : List Bug}
    (hb : Fired env slot talk bugs) (hok : error = .kOk → bugs = [])
    (hd : ∀ fd, s'.driver.regEventDel talk.fd fd = none)
    (hlogs : s'.logs = s.logs.append ⟨[], [], bugs, false⟩) :
    Serves env slot s talk (errorHandle s' u error) := by
  rw [← hu.fd] at hd
  by_cases he : error = .kOk
  · subst he
    rw [hok rfl] at hlogs
    refine ⟨_, _, _, ⟨rfl, ?_, hlogs⟩, .finish hu⟩
    simp [errorHandle]
  · have heq : errorHandle s' u error = ⟨false,
        Session.close { s' with driver := s'.driver.regEventDel u.fd } u.fd,
        { u with error := error, fd := -1 }⟩ := by
      simp [errorHandle, he]
    rw [heq]
    refine ⟨_, _, _, ⟨rfl, ?_, ?_⟩, .fail hu he hb⟩
    · simp [Session.close, hd]
    · have hclose : (Session.close { s' with driver := s'.driver.regEventDel u.fd } u.fd).logs =
          s'.logs.append ⟨[], [u.fd], [], false⟩ := by
        simp [Session.logs, Session.close, Log.append]
      rw [hclose, hlogs, hu.fd]
      simp [Log.append]

theorem waitMore_serves {timeleftMs : ℤ} {direction : Direction} (hu : Heard talk u)
    {bugs : List Bug} (hb : Fired env slot talk bugs) (hl : Limits env talk timeleftMs)
    (hdir : direction = if u.status = .kRead then .kIn else .kOut)
    (hslot : s'.driver talk.fd = some slot) (hd : ∀ fd, s'.driver.regEventDel talk.fd fd = none)
    (hlogs : s'.logs = s.logs.append ⟨[], [], bugs, false⟩) :
    Serves env slot s talk (waitMore env timeleftMs direction slot.ctx s' u) := by
  unfold waitMore
  dsimp only
  have hpass : (slot.ctx.checkTimeout env.now timeleftMs).1 = true → slot.InTime env := by
    intro hc
    by_contra hlate
    have hle : slot.ctx.timeleftMs ≤ env.now - slot.ctx.lasttimeMs := not_lt.mp hlate
    simp [EventCtx.checkTimeout, hle] at hc
  cases hc : (slot.ctx.checkTimeout env.now timeleftMs).1 with
  | false =>
    simp only [Bool.not_false, ↓reduceIte]
    exact errorHandle_serves hu hb (by simp) hd hlogs
  | true =>
    cases hok : env.modOk with
    | false =>
      simp only [EventsDriver.regEventMod, Bool.false_eq_true, Bool.not_true, ↓reduceIte]
      refine errorHandle_serves hu hb (by simp) ?_ hlogs
      intro fd
      have := hd fd
      rw [hu.fd]
      simp only [EventsDriver.regEventDel, Function.update_idem] at this ⊢
      exact this
    | true =>
      simp only [EventsDriver.regEventMod, Bool.false_eq_true, Bool.not_true, ↓reduceIte]
      refine ⟨_, _, _, ⟨rfl, ?_, hlogs⟩, .wait hu hl (hpass hc) hdir hb⟩
      simp only [Function.update_self, Option.map_some, hu.fd, hslot]
      rfl

theorem Fired.none : Fired env slot talk [] := .inl rfl

theorem logs_append_empty (s : Session P) : s.logs = s.logs.append ⟨[], [], [], false⟩ := by
  simp [Session.logs, Log.append]

theorem handleSessionEventConn_serves (hslot : s.driver talk.fd = some slot)
    (hd : ∀ fd, s.driver.regEventDel talk.fd fd = none) :
    Serves env slot s talk (handleSessionEventConn env slot.ctx s talk) := by
  refine waitMore_serves ⟨_, _, _, _, rfl⟩ .none ?_ ?_ hslot hd (logs_append_empty s)
  · split_ifs
    · exact .inr (.inr rfl)
    · exact .inr (.inl rfl)
  · by_cases hk : talk.category = .kReadOnly <;> simp [connTalk, hk]

theorem handleSessionEventRead_serves {A : Tolerance} (hw : talk.Working A)
    (hs : talk.status = .kRead) (hc : talk.category ≠ .kWriteOnly)
    (hslot : s.driver talk.fd = some slot) (hd : ∀ fd, s.driver.regEventDel talk.fd fd = none) :
    Serves env slot s talk (handleSessionEventRead env slot.ctx s talk) := by
  obtain ⟨o, ho⟩ := Option.isSome_iff_exists.mp (hw.objects.read hc)
  simp only [handleSessionEventRead, ho]
  split_ifs with h0 hdec hpos
  · exact errorHandle_serves ⟨_, _, _, _, rfl⟩ .none (fun _ => rfl) hd (logs_append_empty s)
  · exact errorHandle_serves ⟨_, _, _, _, rfl⟩ .none (fun _ => rfl) hd (logs_append_empty s)
  · exact waitMore_serves ⟨_, _, _, _, rfl⟩ .none (.inl rfl) (by simp [readTalk, hs]) hslot hd
      (logs_append_empty s)
  · exact errorHandle_serves ⟨_, _, _, _, rfl⟩ .none (fun _ => rfl) hd (logs_append_empty s)

theorem turnToRead_serves (hu : Heard talk u) (hslot : s.driver talk.fd = some slot)
    (hd : ∀ fd, s.driver.regEventDel talk.fd fd = none) :
    Serves env slot s talk (turnToRead env slot.ctx s u) := by
  obtain ⟨_, _, _, _, rfl⟩ := hu
  unfold turnToRead
  dsimp only
  split_ifs with hto hlate
  · exact errorHandle_serves ⟨_, _, _, _, rfl⟩ .none (by simp) hd (logs_append_empty s)
  · have hfired : Fired env slot talk [.endtime] := by
      refine .inr ⟨rfl, hlate, ?_⟩
      by_contra hpass
      simp only [EventsDriver.Slot.InTime, not_lt] at hpass
      simp [EventCtx.checkTimeout, hpass] at hto
    exact waitMore_serves ⟨_, _, _, _, rfl⟩ hfired (.inr (.inl rfl)) rfl hslot hd
      (by simp [Session.logs, Session.bug, Log.append])
  · exact waitMore_serves ⟨_, _, _, _, rfl⟩ .none (.inr (.inl rfl)) rfl hslot hd
      (logs_append_empty s)

theorem handleSessionEventWrite_serves {A : Tolerance} (hw : talk.Working A)
    (hs : talk.status = .kWrite) (hc : talk.category ≠ .kReadOnly)
    (hslot : s.driver talk.fd = some slot) (hd : ∀ fd, s.driver.regEventDel talk.fd fd = none) :
    Serves env slot s talk (handleSessionEventWrite env slot.ctx s talk) := by
  obtain ⟨o, ho⟩ := Option.isSome_iff_exists.mp (hw.objects.write hc)
  simp only [handleSessionEventWrite, ho]
  split_ifs with h0 hk hbug hpos
  · exact turnToRead_serves ⟨_, _, _, _, rfl⟩ hslot hd
  · -- the assertion on the category: neither of the two categories that write
    cases hcat : talk.category with
    | kWriteOnly => exact absurd hcat hbug
    | kReadOnly => exact absurd hcat hc
    | kWriteAndRead => exact absurd hcat hk
  · exact errorHandle_serves ⟨_, _, _, _, rfl⟩ .none (fun _ => rfl) hd (logs_append_empty s)
  · exact waitMore_serves ⟨_, _, _, _, rfl⟩ .none (.inl rfl) (by simp [writeTalk, hs]) hslot hd
      (logs_append_empty s)
  · exact errorHandle_serves ⟨_, _, _, _, rfl⟩ .none (fun _ => rfl) hd (logs_append_empty s)

theorem handleSessionEvent_serves {A : Tolerance} (event : EventsDriver.Event)
    (hw : talk.Working A) (hslot : s.driver talk.fd = some slot)
    (hd : ∀ fd, s.driver.regEventDel talk.fd fd = none) :
    Serves env slot s talk (handleSessionEvent env event slot.ctx s talk) := by
  unfold handleSessionEvent
  split_ifs with hev
  · exact errorHandle_serves (.refl talk) .none (fun _ => rfl) hd (logs_append_empty s)
  · rcases hw.stage with ⟨hs, -⟩ | ⟨hs, hc, -⟩ | ⟨hs, hc, -⟩
    · rw [hs]
      exact handleSessionEventConn_serves hslot hd
    · rw [hs]
      exact handleSessionEventWrite_serves hw hs hc hslot hd
    · rw [hs]
      exact handleSessionEventRead_serves hw hs hc hslot hd

end AgentSlave

theorem TalkEvent.env_cons {W : Type} (e : TalkEvent W) (es : List (TalkEvent W)) :
    (e :: es).filterMap TalkEvent.env = e.env.toList ++ es.filterMap TalkEvent.env := by
  cases he : e.env <;> simp [he]

theorem Talk.Started.anon {A : Tolerance} {d d' : EventsDriver} {t : Talk P} (h : t.Started A d)
    (hd : d' t.fd = (d t.fd).map Slot.anon) : t.Started A d' := by
  cases h with
  | active h =>
    obtain ⟨hw, slot, hs, hn, ht⟩ := h
    exact .active ⟨hw, slot.anon, by rw [hd, hs]; rfl, hn, ht⟩
  | settled hn h => exact .settled (by rw [hd, hn]; rfl) h
  | orphan hA hn h => exact .orphan hA (by rw [hd, hn]; rfl) h

namespace Solo

open Session (Opened Finished Left)
open AgentSlave (Served handleSessionEvent)

variable {conf : ConfNormal} {c : Solo P} {e : TalkEvent (WriterObj P)}

def Ok (c : Solo P) : Prop := c.talk.At .all c.session.driver c.place

theorem driver_self (c : Solo P) : c.session.driver c.talk.fd = c.slot := if_pos rfl

theorem driver_none (h : c.slot = none) (fd : ℤ) : c.session.driver fd = none := by
  simp [session, h]

theorem driver_del (c : Solo P) (fd : ℤ) : c.session.driver.regEventDel c.talk.fd fd = none := by
  by_cases he : fd = c.talk.fd
  · simp [he]
  · rw [EventsDriver.regEventDel_of_ne _ he]
    exact if_neg he

theorem unregistered_del (c : Solo P) (env : Env) :
    Session.Unregistered env (c.session.driver.regEventDel c.talk.fd) c.talk :=
  ⟨fun _ _ => c.driver_del _, c.driver_del _, fun _ => c.driver_del _⟩

theorem unregistered (h : c.slot = none) (env : Env) :
    Session.Unregistered env c.session.driver c.talk :=
  ⟨fun _ _ => driver_none h _, driver_none h _, fun _ => driver_none h _⟩

theorem Ok.waiting (h : c.Ok) (hp : c.place = .waiting) :
    c.talk.Startable .all ∧ c.slot = none := by
  rw [Ok, hp] at h
  exact ⟨h.1, c.driver_self ▸ h.2⟩

theorem Ok.expiring (h : c.Ok) (hp : c.place = .expiring) :
    c.talk.Working .all ∧ c.slot = none := by
  rw [Ok, hp] at h
  exact ⟨h.1, c.driver_self ▸ h.2⟩

theorem Ok.working (h : c.Ok) {slot : Slot} (hs : c.slot = some slot) :
    c.talk.Working .all ∧ slot.ctx.noTalk = c.talk.noTalk := by
  have := Talk.At.working_of_some h (c.driver_self.trans hs)
  exact ⟨this.1, this.2.1⟩

theorem of_ok {r : Session P × Talk P} (h : r.2.Started .all r.1.driver) : (Solo.of r).Ok :=
  Talk.Started.anon h (if_pos rfl)

theorem next_ok (h : c.Ok) (he : c.Enabled e) : (c.next conf e).Ok := by
  have htimed : ∀ env, Session.Timed .all conf env := fun _ => .inl trivial
  cases e with
  | reset env =>
    obtain ⟨hs, hn⟩ := h.waiting he
    exact of_ok (Session.resetOne_worked hs (htimed env) (unregistered hn env)).started
  | ready event env =>
    obtain ⟨slot, hs⟩ := Option.isSome_iff_exists.mp he.2
    obtain ⟨hw, hn⟩ := h.working hs
    have hwork := (AgentSlave.checkTalk_worked event hw (c.driver_self.trans hs) hn
      (.inl trivial) (htimed env) (c.unregistered_del env) Nat.zero_lt_one).1
    simp only [next, hs, Option.elim_some]
    exact of_ok hwork.started
  | remove =>
    obtain ⟨slot, hs, -⟩ :=
      Option.bind_eq_some_iff.mp (Option.isSome_iff_exists.mp he.2).choose_spec
    exact ⟨(h.working hs).1, driver_none rfl _⟩
  | expire env =>
    obtain ⟨hw, hn⟩ := h.expiring he
    exact of_ok (AgentSlave.cleanTimeout_worked ⟨0, 0, 0, 0, 0⟩ hw (htimed env)
      (unregistered hn env) (.inl trivial)).1.started
  | share w => exact Talk.At.follow h { c.talk with protocolWrite := some w }

/-- Everything a step can do to a talk. -/
inductive Step (conf : ConfNormal) (c : Solo P) : TalkEvent (WriterObj P) → Solo P → Prop
  | skip (env : Env) (hs : c.talk.status = .kEnd) (hb : c.talk.buf = none) :
      Step conf c (.reset env) ⟨{ c.talk with counted := true }, .started, none, c.log⟩
  | start (env : Env) {o : Option Slot} {δ : Log} {u : Talk P} (hb : c.talk.buf.isSome)
      (hs : c.talk.status ≠ .kEnd) (ho : Opened conf env false c.talk o δ u)
      (hu : (Session.resetTalk conf env false c.session c.talk).2 = u) :
      Step conf c (.reset env) ⟨u.settle, .started, o, c.log.append δ⟩
  | wait (event : EventsDriver.Event) (env : Env) {slot : Slot} {o : Option Slot} {δ : Log}
      {u : Talk P} (hslot : c.slot = some slot) (hs : Served env slot c.talk true o δ u)
      (hm : (handleSessionEvent env event slot.ctx c.session c.talk).more = true) :
      Step conf c (.ready event env) ⟨u, .started, o, c.log.append δ⟩
  | finish (event : EventsDriver.Event) (env : Env) {slot : Slot} {o o' : Option Slot}
      {δ δ' : Log} {u v : Talk P} (hslot : c.slot = some slot)
      (hs : Served env slot c.talk false o δ u)
      (hm : (handleSessionEvent env event slot.ctx c.session c.talk).more = false)
      (hu : (handleSessionEvent env event slot.ctx c.session c.talk).talk = u)
      (hf : Finished conf env u (decide (u.error = .kOk)) o' δ' v) :
      Step conf c (.ready event env) ⟨v, .started, o', (c.log.append δ).append δ'⟩
  | remove {slot : Slot} (hslot : c.slot = some slot) :
      Step conf c .remove ⟨c.talk, .expiring, none, c.log⟩
  | expire (env : Env) {o : Option Slot} {δ : Log} {u : Talk P}
      (hf : Finished conf env { c.talk with fd := -1 } false o δ u) :
      Step conf c (.expire env)
        ⟨u, .started, o, (c.log.append ⟨[], [c.talk.fd], [], false⟩).append δ⟩
  | share (w : WriterObj P) : Step conf c (.share w) (c.see w)

theorem of_left {r : Session P × Talk P} {o : Option Slot} {δ : Log} {u : Talk P}
    (h : Left c.session r o δ u) : Solo.of r = ⟨u, .started, o, c.log.append δ⟩ := by
  obtain ⟨rfl, hslot, hlogs⟩ := h
  rw [of, hslot, hlogs]
  rfl

theorem reset_step (env : Env) (h : c.Ok) (he : c.place = .waiting) :
    Step conf c (.reset env) (c.next conf (.reset env)) := by
  obtain ⟨hs, hn⟩ := h.waiting he
  have hopened : c.talk.buf.isSome → c.talk.status ≠ .kEnd →
      Step conf c (.reset env) (c.next conf (.reset env)) := by
    intro hb hend
    obtain ⟨o, δ, u, ⟨htalk, hslot, hlogs⟩, ho⟩ :=
      Session.resetTalk_opened conf env false hb (driver_none hn)
    have hcounted : u.counted = false := ho.carried.counted.trans hs.counted
    have heq : c.next conf (.reset env) = ⟨u.settle, .started, o, c.log.append δ⟩ := by
      apply of_left
      simp only [Session.resetOne, hend, ↓reduceIte, htalk]
      split_ifs with herr
      · exact ⟨by simp [Talk.settle, herr], hslot, hlogs⟩
      · rw [not_not] at herr
        exact ⟨htalk.trans (Talk.settle_of_counted (by simp [hcounted, herr])).symm, hslot, hlogs⟩
    rw [heq]
    exact .start env hb hend ho htalk
  cases hs with
  | skipped hb hend =>
    have heq : c.next conf (.reset env) =
        ⟨{ c.talk with counted := true }, .started, none, c.log⟩ := by
      simp only [next, of, Session.resetOne, hend, ↓reduceIte, driver_none hn, Option.map_none]
      rfl
    rw [heq]
    exact .skip env hend hb
  | unencoded hb hend => exact hopened hb hend
  | ready ho he hs =>
    apply hopened ho.buf
    rw [hs]
    split_ifs <;> simp

theorem ready_step (event : EventsDriver.Event) (env : Env) (h : c.Ok) {slot : Slot}
    (hslot : c.slot = some slot) :
    Step conf c (.ready event env) (c.next conf (.ready event env)) := by
  obtain ⟨hw, hn⟩ := h.working hslot
  have hspec := AgentSlave.handleSessionEvent_spec env event hw (c.driver_self.trans hslot) hn
    (.inl trivial)
  obtain ⟨o, δ, u, hleft, hserved⟩ := AgentSlave.handleSessionEvent_serves event hw
    (c.driver_self.trans hslot) c.driver_del
  simp only [next, hslot, Option.elim_some, AgentSlave.checkTalk]
  generalize hr : AgentSlave.handleSessionEvent env event slot.ctx c.session c.talk = r at *
  cases hspec.result with
  | more hm =>
    rw [if_pos hm, of_left hleft]
    exact .wait event env hslot (hm ▸ hserved) (hr ▸ hm)
  | finish hm hfd hd hf =>
    rw [if_neg (by simp [hm])]
    obtain ⟨rfl : r.talk = u, -, hlogs⟩ := hleft
    obtain ⟨o', δ', v, hleft', hfin⟩ := Session.finishTalk_finished conf env
      (decide (r.talk.error = .kOk)) (s := AgentSlave.freeEventCtx r.session slot.ctx)
      hf.objects.buf (fun hs => by have := (hf.failed hs).1; omega)
      (fun fd => (congrFun hd fd).trans (c.driver_del fd))
      (by
        have hdone := hspec.session.done
        have htalks := hspec.session.talks
        simp only [AgentSlave.freeEventCtx, hdone, htalks]
        exact Nat.zero_lt_one)
    rw [of_left (hleft'.after hlogs), ← Log.append_assoc]
    exact .finish event env hslot (hm ▸ hserved) (hr ▸ hm) (hr ▸ rfl) hfin

theorem expire_step (env : Env) (h : c.Ok) (he : c.place = .expiring) :
    Step conf c (.expire env) (c.next conf (.expire env)) := by
  obtain ⟨hw, hn⟩ := h.expiring he
  have hbuf : ({ c.talk with fd := -1 } : Talk P).buf.isSome := hw.objects.buf
  obtain ⟨o, δ, u, hleft, hf⟩ := Session.finishTalk_finished conf env false
    (s := c.session.close c.talk.fd) hbuf (by simp) (driver_none hn) Nat.zero_lt_one
  have hclose : (c.session.close c.talk.fd).logs =
      c.session.logs.append ⟨[], [c.talk.fd], [], false⟩ := by
    simp [Session.logs, Session.close, Log.append]
  have heq : c.next conf (.expire env) =
      ⟨u, .started, o, (c.log.append ⟨[], [c.talk.fd], [], false⟩).append δ⟩ := by
    rw [Log.append_assoc]
    exact of_left (hleft.after hclose)
  rw [heq]
  exact .expire env hf

theorem next_step (h : c.Ok) (he : c.Enabled e) : Step conf c e (c.next conf e) := by
  cases e with
  | reset env => exact reset_step env h he
  | ready event env =>
    obtain ⟨slot, hs⟩ := Option.isSome_iff_exists.mp he.2
    exact ready_step event env h hs
  | remove =>
    obtain ⟨_, ht⟩ := Option.isSome_iff_exists.mp he.2
    obtain ⟨slot, hs, -⟩ := Option.bind_eq_some_iff.mp ht
    exact .remove hs
  | expire env => exact expire_step env h he
  | share w => exact .share w

/-- A property of a talk and of the events it has still to see, kept by every
step, holds after every run. -/
theorem invariant {I : Solo P → List (TalkEvent (WriterObj P)) → Prop}
    (step : ∀ c e es, c.Ok → c.Enabled e → (c.next conf e).Ok → I c (e :: es) →
      Step conf c e (c.next conf e) → I (c.next conf e) es) (hok : c.Ok)
    {es : List (TalkEvent (WriterObj P))} (hc : I c es) (hes : (machine P conf).Admits c es) :
    I ((machine P conf).exec c es) [] := by
  induction es generalizing c with
  | nil => exact hc
  | cons e es ih =>
    have hok' : (c.next conf e).Ok := next_ok hok hes.1
    exact ih hok' (step c e es hok hes.1 hok' hc (next_step hok hes.1)) hes.2

theorem exec_ok (hok : c.Ok) {es : List (TalkEvent (WriterObj P))}
    (hes : (machine P conf).Admits c es) :
    ((machine P conf).exec c es).Ok :=
  (machine P conf).invariant (fun _ _ h he => next_ok h he) hok hes

theorem start_ok {t : Talk P} (h : t.Startable .all) : (start t).Ok :=
  ⟨h, driver_none rfl _⟩

end Solo

namespace AgentSlave

variable {talks : List (Talk P)} {conf : ConfNormal} {ctxs : EventCtxPool} {ls : List Label}

theorem eventsOf_env (a : AgentSlave P) (l : Label) (i : ℕ) :
    ((a.eventsOf conf l i).filterMap TalkEvent.env).Sublist l.env.toList := by
  have hshare : ∀ o : Option (WriterObj P),
      (o.toList.map TalkEvent.share).filterMap TalkEvent.env = [] := by
    intro o
    cases o <;> rfl
  rw [eventsOf, List.filterMap_append, hshare, List.append_nil]
  cases l <;> simp only [ownEvents] <;> split_ifs <;> simp [TalkEvent.env, Label.env]

theorem trace_env (conf : ConfNormal) (a : AgentSlave P) (ls : List Label) (i : ℕ) :
    ((trace conf a ls i).filterMap TalkEvent.env).Sublist (ls.filterMap Label.env) := by
  induction ls generalizing a with
  | nil => simp [trace]
  | cons l ls ih =>
    have hcons : (l :: ls).filterMap Label.env = l.env.toList ++ ls.filterMap Label.env := by
      cases h : l.env <;> simp [h]
    rw [trace, List.filterMap_append, hcons]
    exact (eventsOf_env a l i).append (ih _)

theorem getElem?_solos {i : ℕ} {t : Talk P} (ht : talks[i]? = some t) :
    (solos conf ctxs talks ls)[i]? =
      some ((Solo.machine P conf).exec (.start t) ((start ctxs talks).trace conf ls i)) := by
  rw [solos, List.getElem?_mapIdx, ht]
  rfl

theorem mem_solos {c : Solo P} (hc : c ∈ solos conf ctxs talks ls) :
    ∃ i t, talks[i]? = some t ∧
      c = (Solo.machine P conf).exec (.start t) ((start ctxs talks).trace conf ls i) := by
  obtain ⟨i, hi⟩ := List.mem_iff_getElem?.mp hc
  rw [solos, List.getElem?_mapIdx] at hi
  obtain ⟨t, ht, rfl⟩ := Option.map_eq_some_iff.mp hi
  exact ⟨i, t, ht, rfl⟩

theorem solos_invariant {I : Solo P → List (TalkEvent (WriterObj P)) → Prop}
    (step : ∀ c e es, c.Ok → c.Enabled e → (c.next conf e).Ok → I c (e :: es) →
      Solo.Step conf c e (c.next conf e) → I (c.next conf e) es)
    (hb : Built talks) (hrun : (machine P conf).Admits (start ctxs talks) ls)
    (hstart : ∀ i t, talks[i]? = some t → I (.start t) ((start ctxs talks).trace conf ls i))
    {c : Solo P} (hc : c ∈ solos conf ctxs talks ls) : I c [] := by
  obtain ⟨i, t, ht, rfl⟩ := mem_solos hc
  have hok := Solo.start_ok (Built.startable hb t (List.mem_of_getElem? ht))
  exact Solo.invariant step hok (hstart i t ht) ((shows_solos conf ctxs hb hrun).2 i t ht)

theorem solos_ok (hb : Built talks) (hrun : (machine P conf).Admits (start ctxs talks) ls)
    {c : Solo P} (hc : c ∈ solos conf ctxs talks ls) : c.Ok := by
  obtain ⟨i, t, ht, rfl⟩ := mem_solos hc
  have hok := Solo.start_ok (Built.startable hb t (List.mem_of_getElem? ht))
  exact Solo.exec_ok hok ((shows_solos conf ctxs hb hrun).2 i t ht)

end AgentSlave

theorem Session.Shows.solo {s : Session P} {pc : Pc} {cs : List (Solo P)} (h : s.Shows pc cs)
    {t : Talk P} (ht : t ∈ s.talks) {slot : Slot} (hslot : s.driver t.fd = some slot) :
    ∃ c ∈ cs, c.talk = t ∧ c.slot = some slot.anon := by
  rw [h.talks] at ht
  obtain ⟨c, hc, rfl⟩ := List.mem_map.mp ht
  exact ⟨c, hc, rfl, by rw [h.slot c hc, hslot]; rfl⟩

theorem Session.Shows.bug {s : Session P} {pc : Pc} {cs : List (Solo P)} (h : s.Shows pc cs)
    {b : Bug} (hb : b ∈ s.bugs) : ∃ c ∈ cs, b ∈ c.log.bugs :=
  List.mem_flatMap.mp (h.bugs.mem_iff.mp hb)

end Magneto
