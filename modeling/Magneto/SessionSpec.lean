import Magneto.TalkLife

/-!
# What one call of the session code does

`ResetCase` lists everything `ResetTalk_` can do. From it follows, for a talk
without a registered event, what `Session::Reset`, `FinishTalk` and its retry
leave behind: the talk is registered again or counted, and the events driver
has changed at most at the talk's new descriptor.
-/

namespace Magneto

variable {P : Protocols}

namespace Session

inductive Connected (env : Env) (talk : Talk P) : List Remote → Talk P → Prop
  | got (h : talk.fd = 0) (hfd : 0 < env.getFd.fd) :
      Connected env talk env.getFd.tmpRemotes { talk with
        remote := some env.getFd.remote
        peer := env.getFd.remote.deref env.getFd.tmpRemotes
        fd := env.getFd.fd
        status := connStatus env.getFd.needless talk.category }
  | kept (h : 0 < talk.fd) : Connected env talk env.tmpRemotes talk

inductive Encoded (isRetry : Bool) (talk : Talk P) : Bool → Talk P → Prop
  | again {w : WriterObj P} {buf : P.Buf} {ok : Bool} (hr : isRetry = true)
      (hw : talk.protocolWrite = some w) (hb : talk.buf = some buf)
      (hok : (P.encode (P.resetWriter w.val buf)).1 = ok) :
      Encoded isRetry talk ok { talk with
        protocolWrite := some { w with val := (P.encode (P.resetWriter w.val buf)).2 }
        encoded := some (P.encode (P.resetWriter w.val buf)).2 }
  | skip (h : isRetry = false ∨ talk.protocolWrite = none) : Encoded isRetry talk true talk

def newSlot (conf : ConfNormal) (env : Env) (tmp : List Remote) (id : ℕ) (talk : Talk P) :
    EventsDriver.Slot :=
  let timeleft := min (talk.endtimeMs - env.now) (timeoMs conf tmp talk)
  ⟨⟨id, talk.fd, timeleft, env.now, talk.noTalk⟩, if talk.status = .kRead then .kIn else .kOut,
    if 0 ≤ Word.narrow timeleft then some (env.now + Word.narrow timeleft) else none⟩

inductive ResetCase (conf : ConfNormal) (env : Env) (isRetry : Bool) (s : Session P)
    (talk : Talk P) : Session P × Talk P → Prop
  | noFd (h : talk.fd = 0) (hfd : ¬ 0 < env.getFd.fd) :
      ResetCase conf env isRetry s talk
        (s.fail, { talk with
          remote := some env.getFd.remote, peer := env.getFd.remote.deref env.getFd.tmpRemotes
          fd := -1, error := .kBroken })
  | invalid (h : talk.fd < 0) :
      ResetCase conf env isRetry s talk ((s.bug .invalidFd).fail, talk)
  | noBuf (tmp : List Remote) (t : Talk P) (hc : Connected env talk tmp t) (hb : t.buf = none)
      (hw : t.protocolWrite.isSome) :
      ResetCase conf env isRetry s talk (s.bug .nullPointer, t)
  | encode (tmp : List Remote) (t u : Talk P) (hc : Connected env talk tmp t)
      (he : Encoded isRetry t false u) :
      ResetCase conf env isRetry s talk (s.fail, { u with error := .kEncode })
  | late (tmp : List Remote) (t u : Talk P) (hc : Connected env talk tmp t)
      (he : Encoded isRetry t true u)
      (ht : u.endtimeMs ≤ env.now) :
      ResetCase conf env isRetry s talk
        ({ s with poolEventCtxs := (s.poolEventCtxs.get () ()).2 }.fail,
          { u with error := .kTimeout })
  | refused (tmp : List Remote) (t u : Talk P) (hc : Connected env talk tmp t)
      (he : Encoded isRetry t true u)
      (hok : env.addOk = false) :
      ResetCase conf env isRetry s talk
        (({ s with
            poolEventCtxs := (s.poolEventCtxs.get () ()).2
            driver := s.driver.regEventDel u.fd }.close u.fd).fail,
          { u with fd := -1, error := .kOther })
  | registered (tmp : List Remote) (t u : Talk P) (hc : Connected env talk tmp t)
      (he : Encoded isRetry t true u)
      (ht : env.now < u.endtimeMs) (hok : env.addOk = true) :
      ResetCase conf env isRetry s talk
        ({ s with
            poolEventCtxs := (s.poolEventCtxs.get () ()).2
            driver := Function.update s.driver u.fd
              (some (newSlot conf env tmp (s.poolEventCtxs.get () ()).1.id u)) }, u)

theorem resetTalkReg_cases (conf : ConfNormal) (env : Env) {isRetry : Bool} (s : Session P)
    {tmp : List Remote} {talk t u : Talk P} (hc : Connected env talk tmp t)
    (he : Encoded isRetry t true u) :
    ResetCase conf env isRetry s talk (resetTalkReg conf env tmp s u) := by
  unfold resetTalkReg
  by_cases ht : u.endtimeMs ≤ env.now
  · simp only [show u.endtimeMs - env.now ≤ 0 by omega, ↓reduceIte]
    exact .late tmp t u hc he ht
  · simp only [show ¬ u.endtimeMs - env.now ≤ 0 by omega, ↓reduceIte]
    cases hok : env.addOk with
    | true => exact .registered tmp t u hc he (by omega) hok
    | false => exact .refused tmp t u hc he hok

theorem resetTalkEncode_cases (conf : ConfNormal) (env : Env) (isRetry : Bool) (s : Session P)
    {tmp : List Remote} {talk t : Talk P} (hc : Connected env talk tmp t) :
    ResetCase conf env isRetry s talk (resetTalkEncode conf env tmp isRetry s t) := by
  unfold resetTalkEncode
  split
  · rename_i w buf hw hb
    dsimp only
    split_ifs with ok
    · exact resetTalkReg_cases conf env s hc (.again rfl hw hb ok)
    · exact .encode tmp t _ hc (.again rfl hw hb (Bool.not_eq_true _ ▸ ok))
  · rename_i w hw hb
    exact .noBuf tmp t hc hb (by simp [hw])
  · rename_i retry _ _ _ hsome hnone
    refine resetTalkReg_cases conf env s hc (.skip ?_)
    cases retry with
    | false => exact .inl rfl
    | true =>
      right
      cases hw : t.protocolWrite with
      | none => rfl
      | some w =>
        cases hb : t.buf with
        | none => exact (hnone w rfl hw hb).elim
        | some b => exact (hsome w b rfl hw hb).elim

theorem resetTalk_cases (conf : ConfNormal) (env : Env) (isRetry : Bool) (s : Session P)
    (talk : Talk P) : ResetCase conf env isRetry s talk (resetTalk conf env isRetry s talk) := by
  unfold resetTalk
  dsimp only
  split_ifs with h₀ hfd h₁
  · exact resetTalkEncode_cases conf env isRetry s (.got h₀ hfd)
  · exact .noFd h₀ hfd
  · exact .invalid h₁
  · exact resetTalkEncode_cases conf env isRetry s (.kept (by omega))

structure Unregistered (env : Env) (d : EventsDriver) (talk : Talk P) : Prop where
  nonpos : ∀ fd ≤ 0, d fd = none
  old : d talk.fd = none
  new : 0 < env.getFd.fd → d env.getFd.fd = none

structure Carried (talk u : Talk P) : Prop where
  noTalk : u.noTalk = talk.noTalk
  category : u.category = talk.category
  buf : u.buf = talk.buf
  protocolRead : u.protocolRead = talk.protocolRead
  attempt : u.attempt = talk.attempt
  past : u.past = talk.past
  counted : u.counted = talk.counted
  readied : u.readied = talk.readied
  id : u.writeId = talk.writeId

theorem Carried.of_eq (talk : Talk P) (fd : ℤ) (error : ErrorNo) (remote : Option RemoteRef)
    (peer : Option Remote) :
    Carried talk { talk with fd := fd, error := error, remote := remote, peer := peer } :=
  ⟨rfl, rfl, rfl, rfl, rfl, rfl, rfl, rfl, rfl⟩

structure Prepared (env : Env) (talk u : Talk P) : Prop extends Carried talk u where
  error : u.error = talk.error
  pos : 0 < u.fd
  conn : u.fd = talk.fd ∧ u.status = talk.status ∧ u.remote = talk.remote ∨
    talk.fd = 0 ∧ u.fd = env.getFd.fd ∧
      u.status = connStatus env.getFd.needless talk.category ∧ u.remote = some env.getFd.remote

theorem Encoded.carried {isRetry ok : Bool} {talk u : Talk P} (h : Encoded isRetry talk ok u) :
    Carried talk u := by
  cases h with
  | again hr hw =>
    refine ⟨rfl, rfl, rfl, rfl, rfl, rfl, rfl, rfl, ?_⟩
    rw [Talk.writeId, Talk.writeId, hw]
    rfl
  | skip => exact ⟨rfl, rfl, rfl, rfl, rfl, rfl, rfl, rfl, rfl⟩

theorem Connected.prepared {env : Env} {isRetry ok : Bool} {tmp : List Remote}
    {talk t u : Talk P} (hc : Connected env talk tmp t) (he : Encoded isRetry t ok u) :
    Prepared env talk u := by
  have hcar := he.carried
  cases hc with
  | got h hfd =>
    refine ⟨{ hcar with }, ?_, ?_, .inr ⟨h, ?_⟩⟩ <;> cases he
    all_goals first | exact hfd | exact ⟨rfl, rfl, rfl⟩ | rfl
  | kept h =>
    refine ⟨{ hcar with }, ?_, ?_, .inl ?_⟩ <;> cases he
    all_goals first | exact h | exact ⟨rfl, rfl, rfl⟩ | rfl

def Reencoded (talk u : Talk P) : Prop :=
  talk.protocolWrite = none ∧ u.protocolWrite = none ∨
  ∃ w buf, talk.protocolWrite = some w ∧ talk.buf = some buf ∧
    (P.encode (P.resetWriter w.val buf)).1 = true ∧
    u.protocolWrite = some { w with val := (P.encode (P.resetWriter w.val buf)).2 } ∧
    u.encoded = some (P.encode (P.resetWriter w.val buf)).2

theorem Connected.same_objects {env : Env} {tmp : List Remote} {talk t : Talk P}
    (hc : Connected env talk tmp t) : t.protocolWrite = talk.protocolWrite ∧ t.buf = talk.buf ∧
      t.encoded = talk.encoded := by
  cases hc <;> exact ⟨rfl, rfl, rfl⟩

theorem Connected.reencoded {env : Env} {isRetry : Bool} {tmp : List Remote} {talk t u : Talk P}
    (hc : Connected env talk tmp t) (he : Encoded isRetry t true u) (hr : isRetry = true) :
    Reencoded talk u := by
  obtain ⟨hw', hb', -⟩ := hc.same_objects
  cases he with
  | again _ hw hb hok => exact .inr ⟨_, _, hw' ▸ hw, hb' ▸ hb, hok, rfl, rfl⟩
  | skip h =>
    rcases h with h | h
    · rw [hr] at h
      cases h
    · exact .inl ⟨hw' ▸ h, h⟩

def Unwritten (talk u : Talk P) : Prop :=
  u.protocolWrite = talk.protocolWrite ∧ u.encoded = talk.encoded

theorem Connected.unwritten {env : Env} {isRetry ok : Bool} {tmp : List Remote}
    {talk t u : Talk P} (hc : Connected env talk tmp t) (he : Encoded isRetry t ok u)
    (hr : isRetry = false) : Unwritten talk u := by
  cases he with
  | again h => rw [hr] at h; cases h
  | skip => exact ⟨hc.same_objects.1, hc.same_objects.2.2⟩

structure Resettable (A : Tolerance) (talk : Talk P) : Prop where
  objects : talk.Objects
  error : talk.error = .kOk
  attempt : talk.attempt = .fresh
  status : 0 < talk.fd → talk.status = if talk.category = .kReadOnly then .kRead else .kWrite
  fd : A.orphan ∨ 0 ≤ talk.fd
  timeo : A.untimed ∨ talk.TimeoOk

def Timed (A : Tolerance) (conf : ConfNormal) (env : Env) : Prop :=
  A.untimed ∨ conf.TimeoOk ∧ env.TimeoOk

theorem Prepared.stage {A : Tolerance} {env : Env} {talk u : Talk P} (hp : Prepared env talk u)
    (hr : Resettable A talk) : u.Stage := by
  have hfresh : u.attempt = .fresh := hp.attempt.trans hr.attempt
  have hrw : u.status = (if u.category = .kReadOnly then .kRead else .kWrite) → u.Stage := by
    intro hs
    by_cases hk : u.category = .kReadOnly
    · rw [if_pos hk] at hs
      exact .read hs (by simp [hk]) (by simp [hk])
    · rw [if_neg hk] at hs
      exact .write hs hk (by simp [hfresh, Talk.Attempt.fresh])
  rcases hp.conn with ⟨hfd, hs, -⟩ | ⟨-, -, hs, -⟩
  · apply hrw
    rw [hs, hp.category]
    exact hr.status (hfd ▸ hp.pos)
  · unfold connStatus at hs
    split_ifs at hs with hn hk
    · exact hrw (by rw [hp.category, if_pos hk, hs])
    · exact hrw (by rw [hp.category, if_neg hk, hs])
    · exact .conn hs hfresh

theorem Prepared.timeoOk {env : Env} {talk u : Talk P} (hp : Prepared env talk u)
    (ht : talk.TimeoOk) (henv : env.TimeoOk) : u.TimeoOk := by
  intro ref h
  rcases hp.conn with ⟨-, -, he⟩ | ⟨-, -, -, he⟩
  · exact ht ref (he ▸ h)
  · obtain rfl : env.getFd.remote = ref := Option.some.inj (he.symm.trans h)
    exact henv.remote

theorem Connected.tmp_timeoOk {env : Env} {tmp : List Remote} {talk t : Talk P}
    (hc : Connected env talk tmp t) (henv : env.TimeoOk) : ∀ r ∈ tmp, r.TimeoOk := by
  cases hc with
  | got => exact henv.got
  | kept => exact henv.tmp

theorem Prepared.working {A : Tolerance} {conf : ConfNormal} {env : Env} {talk u : Talk P}
    (hp : Prepared env talk u) (hr : Resettable A talk) (ht : Timed A conf env)
    (hw : u.category ≠ .kReadOnly → u.protocolWrite.isSome) :
    Talk.Working A { u with counted := false } where
  error := hp.error.trans hr.error
  fd := hp.pos
  counted := rfl
  decoded := by
    show u.attempt.decoded = false
    rw [hp.attempt, hr.attempt]
    rfl
  broken := by
    show u.attempt.broken = false
    rw [hp.attempt, hr.attempt]
    rfl
  objects := by
    refine ⟨?_, hw, ?_⟩
    · show u.buf.isSome
      rw [hp.buf]
      exact hr.objects.buf
    · show u.category ≠ .kWriteOnly → u.protocolRead.isSome
      rw [hp.category, hp.protocolRead]
      exact hr.objects.read
  stage := by
    rcases hp.stage hr with ⟨h, ha⟩ | ⟨h, hc, hw⟩ | ⟨h, hc, hw⟩
    · exact .conn h ha
    · exact .write h hc hw
    · exact .read h hc hw
  timeo := by
    rcases ht with ht | ⟨-, ht⟩
    · exact .inl ht
    rcases hr.timeo with hu | hu
    · exact .inl hu
    exact .inr (hp.timeoOk hu ht)

theorem Prepared.fd {env : Env} {talk u : Talk P} (hp : Prepared env talk u) :
    u.fd = talk.fd ∨ 0 < env.getFd.fd ∧ u.fd = env.getFd.fd := by
  rcases hp.conn with ⟨h, -⟩ | ⟨-, h, -⟩
  · exact .inl h
  · exact .inr ⟨h ▸ hp.pos, h⟩

theorem Prepared.unregistered {env : Env} {d : EventsDriver} {talk u : Talk P}
    (hp : Prepared env talk u) (hu : Unregistered env d talk) : d u.fd = none := by
  rcases hp.fd with h | ⟨hpos, h⟩
  · rw [h]
    exact hu.old
  · rw [h]
    exact hu.new hpos

theorem timeoMs_ok {conf : ConfNormal} {tmp : List Remote} {talk : Talk P} (hconf : conf.TimeoOk)
    (htmp : ∀ r ∈ tmp, r.TimeoOk) (ht : talk.TimeoOk) : TimeoOk (timeoMs conf tmp talk) := by
  unfold timeoMs
  split
  · rename_i r hr
    split_ifs
    · exact hconf.ctimeo
    · exact (ht.remoteIn htmp hr).rtimeo
    · exact (ht.remoteIn htmp hr).wtimeo
  · split_ifs
    · exact hconf.rtimeo
    · exact hconf.wtimeo

theorem timeoOk_min {left limit : ℤ} (h0 : 0 ≤ left) (hl : TimeoOk limit) :
    TimeoOk (min left limit) :=
  ⟨le_min h0 hl.1, lt_of_le_of_lt (min_le_right _ _) hl.2⟩

theorem newSlot_expire {conf : ConfNormal} {env : Env} {tmp : List Remote} {talk : Talk P} (id : ℕ)
    (hconf : conf.TimeoOk) (htmp : ∀ r ∈ tmp, r.TimeoOk) (ht : talk.TimeoOk)
    (hlate : env.now < talk.endtimeMs) :
    TimeoOk (newSlot conf env tmp id talk).ctx.timeleftMs ∧
      (newSlot conf env tmp id talk).expireTimeMs =
        some (env.now + (newSlot conf env tmp id talk).ctx.timeleftMs) := by
  have hok : TimeoOk (min (talk.endtimeMs - env.now) (timeoMs conf tmp talk)) :=
    timeoOk_min (by omega) (timeoMs_ok hconf htmp ht)
  refine ⟨hok, ?_⟩
  simp only [newSlot, Word.narrow_of_mem hok.1 hok.2, if_pos hok.1]

theorem newSlot_timer {A : Tolerance} {conf : ConfNormal} {env : Env} {isRetry : Bool}
    {tmp : List Remote} {talk t u : Talk P} (id : ℕ) (hc : Connected env talk tmp t)
    (he : Encoded isRetry t true u) (hr : Resettable A talk) (ht : Timed A conf env)
    (hlate : env.now < u.endtimeMs) :
    A.untimed ∨ (newSlot conf env tmp id u).expireTimeMs.isSome := by
  rcases ht with ht | ⟨hconf, henv⟩
  · exact .inl ht
  rcases hr.timeo with h | htalk
  · exact .inl h
  · right
    rw [(newSlot_expire id hconf (hc.tmp_timeoOk henv) ((hc.prepared he).timeoOk htalk henv)
      hlate).2]
    rfl

inductive ResetResult (A : Tolerance) (d : EventsDriver) (talk u : Talk P) : Prop
  | registered (hw : Talk.Active A d { u with counted := false })
  | failed (h : u.Failed) (hd : d u.fd = none)
  | orphan (hA : A.orphan) (hfd : talk.fd < 0) (hu : u = talk) (hd : d u.fd = none)

structure ResetSpec (A : Tolerance) (env : Env) (isRetry : Bool) (s : Session P) (talk : Talk P)
    (s' : Session P) (u : Talk P) : Prop where
  talks : s'.talks = s.talks
  done : s'.numTalksDone = s.numTalksDone
  bugs : .numTalksDone ∈ s'.bugs → .numTalksDone ∈ s.bugs
  failure : s'.hasFailure = false → s.hasFailure = false ∧ u.error = .kOk
  frame : ∀ fd, fd ≠ u.fd → s'.driver fd = s.driver fd
  carried : Carried talk u
  fd : u.fd = talk.fd ∨ u.fd ≤ 0 ∨ 0 < env.getFd.fd ∧ u.fd = env.getFd.fd
  kept : isRetry = false → Unwritten talk u
  reencoded : isRetry = true → u.error = .kOk → 0 ≤ talk.fd → Reencoded talk u
  result : ResetResult A s'.driver talk u

theorem Carried.failed {talk u : Talk P} (hc : Carried talk u) (ha : talk.attempt = .fresh)
    (he : u.error ≠ .kOk) : u.Failed where
  error := he
  fd := .inr (hc.attempt.trans ha)
  passed := by
    rw [hc.attempt, ha]
    cases u.category <;> rfl

/-- `ResetTalk_` gives up a talk whose connection it keeps. -/
theorem Prepared.resetSpec_fail {A : Tolerance} {env : Env} {isRetry : Bool} {s : Session P}
    {talk u : Talk P} (hp : Prepared env talk u) (hr : Resettable A talk)
    (hu : Unregistered env s.driver talk)
    (hk : isRetry = false → Unwritten talk u) (ctxs : EventCtxPool)
    {error : ErrorNo} (he : error ≠ .kOk) :
    ResetSpec A env isRetry s talk (fail { s with poolEventCtxs := ctxs })
      { u with error := error } := by
  have hcar : Carried talk { u with error := error } := { hp.toCarried with }
  exact {
    talks := rfl, done := rfl, bugs := id, failure := by simp [fail], frame := fun _ _ => rfl
    carried := hcar
    fd := hp.fd.imp_right .inr
    kept := hk
    reencoded := fun _ h => absurd h he
    result := .failed (hcar.failed hr.attempt he) (hp.unregistered hu) }

theorem resetTalk_spec {A : Tolerance} {conf : ConfNormal} {env : Env} (isRetry : Bool)
    {s : Session P} {talk : Talk P} (hr : Resettable A talk) (ht : Timed A conf env)
    (hu : Unregistered env s.driver talk) :
    ResetSpec A env isRetry s talk (resetTalk conf env isRetry s talk).1
      (resetTalk conf env isRetry s talk).2 := by
  have hcases := resetTalk_cases conf env isRetry s talk
  generalize hres : resetTalk conf env isRetry s talk = res at hcases
  cases hcases with
  | noFd h hfd =>
    exact {
      talks := rfl, done := rfl, bugs := id, failure := by simp [fail], frame := fun _ _ => rfl
      carried := .of_eq talk _ _ _ _
      fd := .inr (.inl (by simp))
      kept := fun _ => ⟨rfl, rfl⟩
      reencoded := by simp
      result := .failed ((Carried.of_eq talk _ _ _ _).failed hr.attempt (by simp))
        (hu.nonpos _ (by simp)) }
  | invalid h =>
    refine {
      talks := rfl, done := rfl, bugs := by simp [fail, bug], failure := by simp [fail]
      frame := fun _ _ => rfl
      carried := .of_eq talk _ _ _ _
      fd := .inl rfl
      kept := fun _ => ⟨rfl, rfl⟩
      reencoded := fun _ _ h0 => by omega
      result := .orphan ?_ h rfl (hu.nonpos talk.fd (by omega)) }
    rcases hr.fd with hA | h0
    · exact hA
    · omega
  | noBuf tmp t hc hb hw =>
    -- a talk that was assigned a writer has a buffer
    have hbuf : t.buf = talk.buf := by cases hc <;> rfl
    have := hr.objects.buf
    simp [← hbuf, hb] at this
  | encode tmp t u hc he =>
    exact (hc.prepared he).resetSpec_fail hr hu (hc.unwritten he) _ (by decide)
  | late tmp t u hc he hlate =>
    exact (hc.prepared he).resetSpec_fail hr hu (hc.unwritten he) _ (by decide)
  | refused tmp t u hc he =>
    have hp := hc.prepared he
    have hk := hc.unwritten he
    have hcar : Carried talk { u with fd := -1, error := .kOther } := { hp.toCarried with }
    have hd : s.driver.regEventDel u.fd = s.driver :=
      EventsDriver.regEventDel_of_none (hp.unregistered hu)
    exact {
      talks := rfl, done := rfl, bugs := id, failure := by simp [fail]
      frame := fun fd _ => congrFun hd fd
      carried := hcar
      fd := .inr (.inl (by simp))
      kept := hk
      reencoded := by simp
      result := .failed (hcar.failed hr.attempt (by simp))
        ((congrFun hd _).trans (hu.nonpos _ (by simp))) }
  | registered tmp t u hc he hlate =>
    have hp := hc.prepared he
    have hwrite : u.category ≠ .kReadOnly → u.protocolWrite.isSome := by
      intro hk
      have hsome := hr.objects.write (hp.category ▸ hk)
      have hid := congrArg Option.isSome hp.id
      simp only [Talk.writeId, Option.isSome_map] at hid
      exact hid.trans hsome
    refine {
      talks := rfl, done := rfl, bugs := id
      failure := fun h => ⟨h, hp.error.trans hr.error⟩
      frame := fun fd hfd => Function.update_of_ne hfd _ _
      carried := hp.toCarried
      fd := hp.fd.imp_right .inr
      kept := hc.unwritten he
      reencoded := fun hret _ _ => hc.reencoded he hret
      result := .registered ⟨hp.working hr ht hwrite, _, Function.update_self _ _ _, ?_, ?_⟩ }
    · rfl
    · exact newSlot_timer _ hc he hr ht hlate

structure Worked (A : Tolerance) (env : Env) (s : Session P) (talk : Talk P) (s' : Session P)
    (u : Talk P) : Prop where
  talks : s'.talks = s.talks
  noTalk : u.noTalk = talk.noTalk
  fd : u.fd = talk.fd ∨ u.fd ≤ 0 ∨ 0 < env.getFd.fd ∧ u.fd = env.getFd.fd
  frame : ∀ fd, fd ≠ u.fd → s'.driver fd = s.driver fd
  done : s'.numTalksDone = s.numTalksDone + if u.counted then 1 else 0
  bugs : s.numTalksDone < s.talks.length → .numTalksDone ∈ s'.bugs → .numTalksDone ∈ s.bugs
  failure : s'.hasFailure = false →
    s.hasFailure = false ∧ (u.counted → u.buf = none ∨ u.Succeeded)
  started : u.Started A s'.driver
  moves : talk.Moves A u

theorem resetOne_skipped {A : Tolerance} {conf : ConfNormal} {env : Env} {s : Session P}
    {talk : Talk P} (hb : talk.buf = none) (hs : talk.status = .kEnd)
    (ha : talk.attempt = .fresh) (hd : s.driver talk.fd = none) :
    Worked A env s talk (resetOne conf env s talk).1 (resetOne conf env s talk).2 := by
  simp only [resetOne, hs, ↓reduceIte]
  exact {
    talks := rfl, noTalk := rfl, fd := .inl rfl, frame := fun _ _ => rfl, done := by simp
    bugs := fun _ => id
    failure := fun h => ⟨h, fun _ => .inl hb⟩
    started := .settled hd (.skipped rfl hb ha)
    moves := .same ⟨rfl, rfl, rfl, rfl, rfl, rfl, rfl, rfl⟩ id }

theorem resetOne_unencoded {A : Tolerance} {conf : ConfNormal} {env : Env} {s : Session P}
    {talk : Talk P} (hb : talk.buf.isSome) (hs : talk.status ≠ .kEnd)
    (he : talk.error = .kEncode) (hfd : talk.fd = -1) (ha : talk.attempt = .fresh)
    (hd : s.driver talk.fd = none) :
    Worked A env s talk (resetOne conf env s talk).1 (resetOne conf env s talk).2 := by
  have h0 : ¬ talk.fd = 0 := by omega
  have h1 : talk.fd < 0 := by omega
  have hne : talk.error ≠ .kOk := by simp [he]
  simp only [resetOne, hs, resetTalk, h0, h1, ↓reduceIte, hne, ne_eq, not_false_eq_true]
  exact {
    talks := rfl, noTalk := rfl, fd := .inl rfl, frame := fun _ _ => rfl
    done := by simp [bug, fail]
    bugs := fun _ => by simp [bug, fail]
    failure := by simp [bug, fail]
    started := .settled hd
      (.failed rfl hb (((Carried.of_eq talk _ _ _ _).failed ha hne).setCounted true))
    moves := .same ⟨rfl, rfl, rfl, rfl, rfl, rfl, rfl, rfl⟩ id }

theorem Carried.moves {A : Tolerance} {talk u : Talk P} (hc : Carried talk u)
    (he : talk.error = .kOk) (hw : Unwritten talk u) : talk.Moves A u :=
  .same ⟨hc.category, hc.buf, hw.1, hc.protocolRead, hc.attempt, hc.past, hw.2, hc.readied⟩
    fun _ => he

theorem resetOne_ready {A : Tolerance} {conf : ConfNormal} {env : Env} {s : Session P}
    {talk : Talk P} (hr : Resettable A talk) (hs : talk.status ≠ .kEnd)
    (hn : talk.counted = false) (ht : Timed A conf env) (hu : Unregistered env s.driver talk) :
    Worked A env s talk (resetOne conf env s talk).1 (resetOne conf env s talk).2 := by
  have h := resetTalk_spec false hr ht hu
  simp only [resetOne, hs, ↓reduceIte]
  generalize resetTalk conf env false s talk = r at h ⊢
  obtain ⟨s', u⟩ := r
  dsimp only at h ⊢
  have hc : u.counted = false := h.carried.counted.trans hn
  have hbuf : u.buf.isSome := by
    rw [h.carried.buf]
    exact hr.objects.buf
  have hm := h.carried.moves (A := A) hr.error (h.kept rfl)
  split_ifs with he
  · exact {
      talks := h.talks, noTalk := h.carried.noTalk, fd := h.fd, frame := h.frame
      done := by simp [h.done]
      bugs := fun _ => h.bugs
      failure := fun hf => absurd (h.failure hf).2 he
      started := by
        rcases h.result with hw | ⟨hf, hd⟩ | ⟨-, -, hu, -⟩
        · exact absurd hw.1.error he
        · exact .settled hd (.failed rfl hbuf (hf.setCounted true))
        · exact absurd (hu ▸ hr.error) he
      moves := hm.trans (Talk.Moves.same ⟨rfl, rfl, rfl, rfl, rfl, rfl, rfl, rfl⟩ id) }
  · rw [ne_eq, not_not] at he
    exact {
      talks := h.talks, noTalk := h.carried.noTalk, fd := h.fd, frame := h.frame
      done := by simp [h.done, hc]
      bugs := fun _ => h.bugs
      failure := fun hf => ⟨(h.failure hf).1, by simp [hc]⟩
      started := by
        rcases h.result with hw | ⟨hf, hd⟩ | ⟨hA, hfd, hu, hd⟩
        · exact .active (by simpa only [← hc] using hw)
        · exact absurd he hf.error
        · exact .orphan hA hd ⟨hc, he, hu ▸ hfd⟩
      moves := hm }

theorem resetOne_worked {A : Tolerance} {conf : ConfNormal} {env : Env} {s : Session P}
    {talk : Talk P} (h : talk.Startable A) (ht : Timed A conf env)
    (hu : Unregistered env s.driver talk) :
    Worked A env s talk (resetOne conf env s talk).1 (resetOne conf env s talk).2 := by
  cases h with
  | skipped hb hs ha => exact resetOne_skipped hb hs ha hu.old
  | unencoded hb hs he hfd ha => exact resetOne_unencoded hb hs he hfd ha hu.old
  | ready ho he hs hfd htm ha hn =>
    refine resetOne_ready ⟨ho, he, ha, fun _ => hs, hfd, htm⟩ ?_ hn ht hu
    rw [hs]
    split_ifs <;> simp

theorem resetOne_unwritten {A : Tolerance} {conf : ConfNormal} {env : Env} {s : Session P}
    {talk : Talk P} (h : talk.Startable A) (he : talk.error ≠ .kOk) :
    (resetOne conf env s talk).2.error ≠ .kOk ∧
      (resetOne conf env s talk).2.protocolWrite = talk.protocolWrite := by
  cases h with
  | skipped hb hs => simp only [resetOne, hs, ↓reduceIte, ne_eq, he, not_false_eq_true, and_self]
  | unencoded hb hs hk hfd =>
    have h0 : ¬ talk.fd = 0 := by omega
    have h1 : talk.fd < 0 := by omega
    simp [resetOne, hs, resetTalk, h0, h1, hk]
  | ready ho hk => exact absurd hk he

structure Finishing (A : Tolerance) (talk : Talk P) (succ : Bool) : Prop where
  counted : talk.counted = false
  objects : talk.Objects
  timeo : A.untimed ∨ talk.TimeoOk
  succeeded : succ = true → talk.Succeeded
  failed : succ = false → talk.fd = -1 ∧ talk.attempt.passed talk.category = false
  expired : succ = false → talk.error = .kOk → A.expired ∨ talk.retry ≠ 0

theorem reportStatus_eq (env : Env) (succ : Bool) (s : Session P) (talk : Talk P) :
    ∃ reports failRemotes, reportStatus env succ s talk =
      ({ s with reports := reports }, { talk with failRemotes := failRemotes }) := by
  unfold reportStatus
  split
  · cases succ <;> exact ⟨_, _, rfl⟩
  · exact ⟨_, _, rfl⟩

theorem Finishing.resettable {A : Tolerance} {talk : Talk P} {succ : Bool}
    (h : Finishing A talk succ) (retry : ℕ) (past : List Talk.Attempt)
    (failRemotes : List Remote) :
    Resettable A { talk with
      counted := true, retry := retry, fd := 0, error := .kOk, attempt := .fresh, past := past
      failRemotes := failRemotes } where
  objects := ⟨h.objects.buf, h.objects.write, h.objects.read⟩
  error := rfl
  attempt := rfl
  status := fun h => absurd h (by simp)
  fd := .inr le_rfl
  timeo := h.timeo

theorem retryTalk_worked {A : Tolerance} {conf : ConfNormal} {env : Env} {s₀ : Session P}
    {talk : Talk P} (h : Finishing A talk false) (ht : Timed A conf env)
    (hu : Unregistered env s₀.driver talk) (reports : List (Remote × Bool))
    (failRemotes : List Remote) (bugs : List Bug)
    (hbugs : s₀.numTalksDone < s₀.talks.length → .numTalksDone ∈ bugs → .numTalksDone ∈ s₀.bugs) :
    let r := retryTalk conf env
      { s₀ with numTalksDone := s₀.numTalksDone + 1, bugs := bugs, reports := reports }
      { talk with counted := true, failRemotes := failRemotes }
    Worked A env s₀ talk r.1 r.2 := by
  have hneg : ¬ 0 < talk.fd := by
    have := (h.failed rfl).1
    omega
  have hspec := resetTalk_spec true
    (h.resettable (talk.retry - 1) (talk.past ++ [talk.attempt]) failRemotes) ht
    (s := { s₀ with numTalksDone := s₀.numTalksDone + 1, bugs := bugs, reports := reports })
    ⟨hu.nonpos, hu.nonpos 0 le_rfl, hu.new⟩
  simp only [retryTalk, hneg, ↓reduceIte]
  generalize resetTalk conf env true _ _ = r at hspec ⊢
  obtain ⟨s', u⟩ := r
  dsimp only at hspec ⊢
  have hc : u.counted = true := hspec.carried.counted
  have hbuf : u.buf.isSome := by
    rw [hspec.carried.buf]
    exact h.objects.buf
  have hfd : u.fd = talk.fd ∨ u.fd ≤ 0 ∨ 0 < env.getFd.fd ∧ u.fd = env.getFd.fd := by
    rcases hspec.fd with h0 | h1
    · exact .inr (.inl h0.le)
    · exact .inr h1
  have hm : talk.Retried u := {
    category := hspec.carried.category, buf := hspec.carried.buf
    protocolRead := hspec.carried.protocolRead, attempt := hspec.carried.attempt
    past := hspec.carried.past, id := hspec.carried.id, readied := hspec.carried.readied
    reencoded := fun he => hspec.reencoded rfl he le_rfl }
  split_ifs with he
  · exact {
      talks := hspec.talks, noTalk := hspec.carried.noTalk, fd := hfd, frame := hspec.frame
      done := by simp [hspec.done]
      bugs := fun hlt hb => hbugs hlt (hspec.bugs hb)
      failure := fun hf => ⟨(hspec.failure hf).1, by simp⟩
      started := by
        rcases hspec.result with hw | ⟨hf, -⟩ | ⟨-, hlt, -, -⟩
        · exact .active hw
        · exact absurd he hf.error
        · exact absurd hlt (lt_irrefl _)
      moves := .single (.retry { hm with }) }
  · exact {
      talks := hspec.talks, noTalk := hspec.carried.noTalk, fd := hfd, frame := hspec.frame
      done := by simp [hspec.done, hc, fail]
      bugs := fun hlt hb => hbugs hlt (hspec.bugs hb)
      failure := by simp [fail]
      started := by
        rcases hspec.result with hw | ⟨hf, hd⟩ | ⟨-, hlt, -, -⟩
        · exact absurd hw.1.error he
        · exact .settled hd (.failed hc hbuf hf)
        · exact absurd hlt (lt_irrefl _)
      moves := .single (.retry hm) }

theorem finishTalk_worked {A : Tolerance} {conf : ConfNormal} {env : Env} {succ : Bool}
    {s : Session P} {talk : Talk P} (h : Finishing A talk succ) (ht : Timed A conf env)
    (hu : Unregistered env s.driver talk) :
    Worked A env s talk (finishTalk conf env succ s talk).1
      (finishTalk conf env succ s talk).2.1 := by
  have hcount : ∃ bugs, (if s.talks.length < s.numTalksDone + 1 then
        bug { s with numTalksDone := s.numTalksDone + 1 } .numTalksDone
      else { s with numTalksDone := s.numTalksDone + 1 }) =
        { s with numTalksDone := s.numTalksDone + 1, bugs := bugs } ∧
      (s.numTalksDone < s.talks.length → .numTalksDone ∈ bugs → .numTalksDone ∈ s.bugs) := by
    split_ifs with hlt
    · exact ⟨_, rfl, fun hlt' => by omega⟩
    · exact ⟨s.bugs, rfl, fun _ => id⟩
  obtain ⟨bugs, hs, hbugs⟩ := hcount
  obtain ⟨reports, failRemotes, hrep⟩ := reportStatus_eq env succ
    { s with numTalksDone := s.numTalksDone + 1, bugs := bugs } { talk with counted := true }
  have hm : talk.Moves A { talk with counted := true, failRemotes := failRemotes } :=
    .same ⟨rfl, rfl, rfl, rfl, rfl, rfl, rfl, rfl⟩ id
  simp only [finishTalk, hs, hrep]
  cases succ with
  | true =>
    have hsucc := h.succeeded rfl
    have hsucc' : Talk.Succeeded { talk with counted := true, failRemotes := failRemotes } :=
      ⟨hsucc.error, hsucc.fd, hsucc.passed⟩
    exact {
      talks := rfl, noTalk := rfl, fd := .inl rfl, frame := fun _ _ => rfl, done := by simp
      bugs := hbugs
      failure := fun hf => ⟨hf, fun _ => .inr hsucc'⟩
      started := .settled hu.old (.succeeded rfl h.objects.buf hsucc')
      moves := hm }
  | false =>
    obtain ⟨hfd, hcompl⟩ := h.failed rfl
    simp only [Bool.false_eq_true, ↓reduceIte]
    by_cases hret : talk.retry = 0
    · rw [if_neg (not_not.mpr hret)]
      exact {
        talks := rfl, noTalk := rfl, fd := .inl rfl, frame := fun _ _ => rfl
        done := by simp [fail]
        bugs := hbugs
        failure := by simp [fail]
        started := by
          refine .settled hu.old ?_
          by_cases he : talk.error = .kOk
          · have hA := (h.expired rfl he).resolve_right (not_not.mpr hret)
            exact .expired hA rfl h.objects.buf ⟨he, hfd, hcompl⟩
          · exact .failed rfl h.objects.buf ⟨he, .inl (hfd.trans_le (by simp)), hcompl⟩
        moves := hm }
    · rw [if_pos hret]
      exact retryTalk_worked h ht hu reports failRemotes bugs hbugs

end Session

end Magneto
