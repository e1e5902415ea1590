import Magneto.TalkStep
import Magneto.SessionOutcome

/-!
# Accounting for failed attempts

An attempt can fail at once in `ResetTalk_`, when `GetFd` returns no descriptor or
the descriptor cannot be registered, or later in a handler or by its timer. Only
the later failures go through `FinishTalk`, which reports the remote, remembers it
and tries again. It reads the remote through the talk's pointer, and a pointer into
`tmp_remotes_` may by then denote what was selected for another talk. So as long as
no attempt is refused at once and no pointer has gone stale, the failed attempts of
a talk are the failures it has reported, and it gives up only when no attempt is
left, its deadline has passed or its request cannot be encoded.
-/

namespace Magneto

variable {P : Protocols}

open EventsDriver (Slot)

/-- The remote selected for an attempt that `ResetTalk_` gave up at once, for another reason
than the deadline or the encoding. -/
def Talk.refusal (u : Talk P) : List Remote :=
  if u.error = .kBroken ∨ u.error = .kOther then u.peer.toList else []

/-- The talk's pointer denotes the remote that was selected for the attempt. -/
def Talk.Points (env : Env) (t : Talk P) : Prop := t.remoteIn env.tmpRemotes = t.peer

instance (env : Env) (t : Talk P) : Decidable (t.Points env) := inferInstanceAs (Decidable (_ = _))

namespace Solo

open AgentSlave (handleSessionEvent)

def Breaks (env : Env) (event : EventsDriver.Event) (c : Solo P) (slot : Slot) : Prop :=
  (handleSessionEvent env event slot.ctx c.session c.talk).more = false ∧
    (handleSessionEvent env event slot.ctx c.session c.talk).talk.error ≠ .kOk

instance (env : Env) (event : EventsDriver.Event) (c : Solo P) (slot : Slot) :
    Decidable (c.Breaks env event slot) := inferInstanceAs (Decidable (_ ∧ _))

def failing (c : Solo P) (u : Talk P) : List Remote :=
  c.talk.peer.toList ++ if c.talk.retry = 0 then [] else u.refusal

def failures (conf : ConfNormal) (c : Solo P) (e : TalkEvent (WriterObj P)) : List Remote :=
  match e with
  | .reset env =>
    if c.talk.status = .kEnd then []
    else (Session.resetTalk conf env false c.session c.talk).2.refusal
  | .ready event env =>
    c.slot.elim [] fun slot =>
      if c.Breaks env event slot then c.failing (c.next conf e).talk else []
  | .remove => []
  | .expire _ => c.failing (c.next conf e).talk
  | .share _ => []

def allFailures (conf : ConfNormal) :
    Solo P → List (TalkEvent (WriterObj P)) → List Remote
  | _, [] => []
  | c, e :: es => failures conf c e ++ allFailures conf (c.next conf e) es

end Solo

def Log.failures (log : Log) : List Remote := (log.reports.filter (!·.2)).map Prod.fst

theorem Log.failures_append (a b : Log) : (a.append b).failures = a.failures ++ b.failures := by
  simp [Log.failures, Log.append]

theorem Talk.report_failures (env : Env) (t : Talk P) (succ : Bool) (closed : List ℤ)
    (bugs : List Bug) (failed : Bool) :
    Log.failures ⟨t.report env succ, closed, bugs, failed⟩ =
      if succ then [] else (t.remoteIn env.tmpRemotes).toList := by
  cases hr : t.remoteIn env.tmpRemotes <;> cases succ <;> simp [Log.failures, Talk.report, hr]

def Talk.GaveUp (t : Talk P) : Prop :=
  t.counted = true ∧ t.buf.isSome = true ∧ t.attempt.passed t.category = false

def Talk.Excused (envs : List Env) (t : Talk P) : Prop :=
  t.error = .kEncode ∨ t.error = .kTimeout ∧ ∃ env ∈ envs, t.endtimeMs ≤ env.now

namespace Solo

/-- The pointer to the remote of a failed attempt is not stale, and the next attempt is not
refused. -/
def Continues (env : Env) (t : Talk P) : Prop :=
  t.Points env ∧ (t.retry ≠ 0 → 0 < env.getFd.fd ∧ env.addOk = true)

/-- What is asked of `ResetTalk_` in a step is not refused: `GetFd` returns a descriptor
where it is called, and the descriptor can be registered. -/
def Connects (c : Solo P) : TalkEvent (WriterObj P) → Prop
  | .reset env => (c.talk.fd = 0 → 0 < env.getFd.fd) ∧ env.addOk = true
  | .ready event env => ∀ slot ∈ c.slot, c.Breaks env event slot → Continues env c.talk
  | .remove => True
  | .expire env => Continues env c.talk
  | .share _ => True

def connected (P : Protocols) (conf : ConfNormal) :
    Machine (Solo P) (TalkEvent (WriterObj P)) :=
  (machine P conf).guarded Connects

instance (c : Solo P) : ∀ e, Decidable (c.Enabled e)
  | .reset _ => inferInstanceAs (Decidable (_ = _))
  | .ready _ _ => inferInstanceAs (Decidable (_ ∧ _))
  | .remove => inferInstanceAs (Decidable (_ ∧ (_ = true)))
  | .expire _ => inferInstanceAs (Decidable (_ = _))
  | .share _ => inferInstanceAs (Decidable True)

instance (env : Env) (t : Talk P) : Decidable (Continues env t) :=
  inferInstanceAs (Decidable (_ ∧ (_ → _)))

instance (c : Solo P) : ∀ e, Decidable (c.Connects e)
  | .reset _ => inferInstanceAs (Decidable ((_ → _) ∧ _))
  | .ready _ _ => inferInstanceAs (Decidable (∀ slot ∈ c.slot, _ → _))
  | .remove => inferInstanceAs (Decidable True)
  | .expire _ => inferInstanceAs (Decidable (Continues _ _))
  | .share _ => inferInstanceAs (Decidable True)

instance (conf : ConfNormal) (c : Solo P) (e : TalkEvent (WriterObj P)) :
    Decidable ((connected P conf).enabled c e) :=
  inferInstanceAs (Decidable (c.Enabled e ∧ c.Connects e))

end Solo

namespace Session

variable {conf : ConfNormal} {env : Env} {isRetry : Bool} {talk u : Talk P} {o : Option Slot}
  {δ : Log}

theorem Connected.budget {tmp : List Remote} {t : Talk P} {ok : Bool}
    (hc : Connected env talk tmp t)
    (he : Encoded isRetry t ok u) :
    u.failRemotes = talk.failRemotes ∧ u.retry = talk.retry := by
  cases hc <;> cases he <;> exact ⟨rfl, rfl⟩

structure Unrefused (env : Env) (talk u : Talk P) (δ : Log) : Prop where
  failRemotes : u.failRemotes = talk.failRemotes
  retry : u.retry = talk.retry
  past : u.past = talk.past
  reports : δ.failures = []
  refusal : u.refusal = []
  excused : u.error ≠ .kOk → u.Excused [env]

theorem Opened.unrefused (h : Opened conf env isRetry talk o δ u)
    (he : talk.error = .kOk ∨ talk.error = .kEncode)
    (hfd : talk.fd = 0 → 0 < env.getFd.fd) (hok : env.addOk = true) :
    Unrefused env talk u δ := by
  have hpast := h.carried.past
  cases h with
  | noFd h0 hno => exact absurd (hfd h0) hno
  | invalid h =>
    refine ⟨rfl, rfl, rfl, rfl, ?_, fun hne => .inl (he.resolve_left hne)⟩
    rcases he with he | he <;> simp [Talk.refusal, he]
  | encode tmp t u hc hen =>
    obtain ⟨hf, hr⟩ := hc.budget hen
    exact ⟨hf, hr, hpast, rfl, by simp [Talk.refusal], fun _ => .inl rfl⟩
  | late tmp t u hc hen ht =>
    obtain ⟨hf, hr⟩ := hc.budget hen
    exact ⟨hf, hr, hpast, rfl, by simp [Talk.refusal], fun _ => .inr ⟨rfl, env, by simp, ht⟩⟩
  | refused tmp t u hc hen hno => rw [hok] at hno; cases hno
  | registered tmp t u hc hen =>
    obtain ⟨hf, hr⟩ := hc.budget hen
    have herr : u.error = talk.error := (hc.prepared hen).error
    refine ⟨hf, hr, hpast, rfl, ?_, fun hne => .inl ?_⟩
    · rcases he with he | he <;> simp [Talk.refusal, herr, he]
    · exact herr.trans (he.resolve_left (herr ▸ hne))

theorem Finished.accounts {succ : Bool} (h : Finished conf env talk succ o δ u)
    (hsucc : succ = false) (hcont : Solo.Continues env talk) :
    u.failRemotes = talk.failRemotes ++ talk.peer.toList ∧
      δ.failures = talk.peer.toList ∧
      u.retry + u.past.length = talk.retry + talk.past.length ∧
      (if talk.retry = 0 then [] else u.refusal) = [] ∧
      (u.counted = true → u.retry = 0 ∨ u.Excused [env]) := by
  obtain ⟨hpoints, hfd⟩ := hcont
  rw [← hpoints]
  cases h with
  | succeeded => cases hsucc
  | failed hr =>
    refine ⟨rfl, by rw [Talk.report_failures]; rfl, rfl, if_pos hr, fun _ => .inl hr⟩
  | again hr ho =>
    obtain ⟨hpos, hok⟩ := hfd hr
    have hun := ho.unrefused (.inl rfl) (fun _ => hpos) hok
    rename_i δ' v
    refine ⟨hun.failRemotes, ?_, ?_, ?_, fun hc => .inr ?_⟩
    · rw [Log.failures_append, Talk.report_failures, hun.reports, List.append_nil]
      rfl
    · have hretry : v.retry = talk.retry - 1 := hun.retry
      have hpast : v.past.length = talk.past.length + 1 := by
        rw [hun.past]
        simp [Talk.again]
      have hv : v.settle.retry + v.settle.past.length = v.retry + v.past.length := rfl
      omega
    · rw [if_neg hr]
      exact hun.refusal
    · exact hun.excused (by simpa [Talk.settle] using hc)

end Session

namespace Solo

variable {conf : ConfNormal} {c c' : Solo P} {e : TalkEvent (WriterObj P)}

structure Accounted (conf : ConfNormal) (c : Solo P) (e : TalkEvent (WriterObj P))
    (c' : Solo P) : Prop where
  failRemotes : c'.talk.failRemotes = c.talk.failRemotes ++ failures conf c e
  reports : c'.log.failures = c.log.failures ++ failures conf c e
  budget : c'.talk.retry + c'.talk.past.length = c.talk.retry + c.talk.past.length
  gaveUp : c'.talk.GaveUp →
    (c.talk.GaveUp ∧ c'.talk.past = c.talk.past ∧ c'.talk.error = c.talk.error ∧
        c'.talk.endtimeMs = c.talk.endtimeMs) ∨
      c'.talk.retry = 0 ∨ c'.talk.Excused e.env.toList

theorem failures_ready {event : EventsDriver.Event} {env : Env} {slot : Slot}
    (hslot : c.slot = some slot) : failures conf c (.ready event env) =
      if c.Breaks env event slot then c.failing (c.next conf (.ready event env)).talk else [] := by
  rw [failures, hslot]
  rfl

theorem Startable.error {A : Tolerance} {t : Talk P} (h : t.Startable A)
    (hb : t.buf.isSome) : t.error = .kOk ∨ t.error = .kEncode := by
  cases h with
  | skipped hn => simp [hn] at hb
  | unencoded _ _ he => exact .inr he
  | ready _ he => exact .inl he

theorem Ok.not_gaveUp (h : c.Ok) (hp : c.place = .started) (he : c.talk.error = .kOk)
    (hfd : 0 < c.talk.fd) : ¬ c.talk.GaveUp := by
  rintro ⟨hc, hb, hcompl⟩
  rw [Ok, hp] at h
  cases h with
  | active h => rw [h.1.counted] at hc; cases hc
  | orphan hA hd h => rw [h.counted] at hc; cases hc
  | settled hd h =>
    cases h with
    | skipped _ hn => simp [hn] at hb
    | succeeded _ _ h => rw [h.passed] at hcompl; cases hcompl
    | failed _ _ h => exact h.error he
    | expired _ _ _ h => rw [h.fd] at hfd; omega

theorem Step.accounted (h : Step conf c e c') (hnext : c' = c.next conf e) (hok : c.Ok)
    (he : c.Enabled e) (hok' : c'.Ok) (hc : c.Connects e) : Accounted conf c e c' := by
  cases h with
  | skip env hs hb =>
    have hnone : failures conf c (.reset env) = [] := if_pos hs
    refine ⟨by simp [hnone], by simp [hnone], rfl, fun hg => ?_⟩
    have : c.talk.buf.isSome = true := hg.2.1
    simp [hb] at this
  | start env hb hs ho hu =>
    have hun := ho.unrefused (Startable.error (hok.waiting he).1 hb) hc.1 hc.2
    have hnone : failures conf c (.reset env) = [] := by
      rw [failures, if_neg hs, hu]
      exact hun.refusal
    refine ⟨?_, ?_, ?_, fun hg => .inr (.inr ?_)⟩
    · rw [hnone, List.append_nil]
      exact hun.failRemotes
    · rw [hnone, Log.failures_append, hun.reports]
    · exact congrArg₂ (· + ·) hun.retry (congrArg List.length hun.past)
    · exact hun.excused (by simpa [Talk.settle] using hg.1)
  | wait event env hslot hs hm =>
    have hnone : failures conf c (.ready event env) = [] := by
      rw [failures_ready hslot, if_neg]
      rintro ⟨hm', -⟩
      rw [hm] at hm'
      cases hm'
    cases hs with
    | wait hu =>
      obtain ⟨_, _, _, _, rfl⟩ := hu
      refine ⟨by simp [hnone], ?_, rfl, fun hg => ?_⟩
      · rw [hnone, Log.failures_append]
        rfl
      · have := (hok'.working rfl).1.counted
        rw [hg.1] at this
        cases this
  | finish event env hslot hs hm hu hf =>
    rename_i slot _ _ _ _ _ _
    cases hs with
    | finish heard =>
      have hnone : failures conf c (.ready event env) = [] := by
        rw [failures_ready hslot, if_neg]
        rintro ⟨-, herr⟩
        rw [hu] at herr
        exact herr rfl
      obtain ⟨_, _, _, _, rfl⟩ := heard
      cases hf with
      | succeeded =>
        refine ⟨by simp [hnone], ?_, rfl, fun hg => ?_⟩
        · rw [hnone, Log.failures_append, Log.failures_append, Talk.report_failures]
          simp [Log.failures, Log.empty]
        · exact absurd hg (hok'.not_gaveUp rfl rfl (hok.working hslot).1.fd)
    | fail heard hne hb =>
      have hbreaks : c.Breaks env event slot := ⟨hm, by rw [hu]; exact hne⟩
      obtain ⟨_, _, _, _, rfl⟩ := heard
      obtain ⟨hfail, hrep, hbudget, hrefuse, hgave⟩ :=
        hf.accounts (by simp [hne]) (hc slot hslot hbreaks)
      have hfailing : failures conf c (.ready event env) = c.talk.peer.toList := by
        rw [failures_ready hslot, if_pos hbreaks, ← hnext, failing]
        exact (congrArg _ hrefuse).trans (List.append_nil _)
      refine ⟨hfail.trans (by rw [hfailing]), ?_, hbudget, fun hg => .inr (hgave hg.1)⟩
      rw [hfailing, Log.failures_append, Log.failures_append, hrep]
      simp [Log.failures]
  | remove hslot =>
    refine ⟨by simp [failures], by simp [failures], rfl, fun hg => ?_⟩
    have := (hok.working hslot).1.counted
    rw [show c.talk.counted = true from hg.1] at this
    cases this
  | expire env hf =>
    have hcont : Continues env { c.talk with fd := -1 } := hc
    obtain ⟨hfail, hrep, hbudget, hrefuse, hgave⟩ := hf.accounts rfl hcont
    have hfailing : failures conf c (.expire env) = c.talk.peer.toList := by
      rw [failures, ← hnext, failing]
      exact (congrArg _ hrefuse).trans (List.append_nil _)
    refine ⟨hfail.trans (by rw [hfailing]), ?_, hbudget, fun hg => .inr (hgave hg.1)⟩
    rw [hfailing, Log.failures_append, Log.failures_append, hrep]
    simp [Log.failures]
  | share w =>
    exact ⟨(List.append_nil _).symm, (List.append_nil _).symm, rfl,
      fun hg => .inl ⟨hg, rfl, rfl, rfl⟩⟩

structure Accounts (conf : ConfNormal) (envs : List Env) (r : ℕ) (total : List Remote)
    (c : Solo P) (es : List (TalkEvent (WriterObj P))) : Prop where
  admits : (connected P conf).Admits c es
  seen : es.filterMap TalkEvent.env ⊆ envs
  failRemotes : c.talk.failRemotes ++ allFailures conf c es = total
  reports : c.log.failures ++ allFailures conf c es = total
  budget : c.talk.retry + c.talk.past.length = r
  gaveUp : c.talk.GaveUp → c.talk.past.length = r ∨ c.talk.Excused envs

theorem Accounts.step {envs : List Env} {r : ℕ} {total : List Remote}
    {es : List (TalkEvent (WriterObj P))}
    (h : Accounts conf envs r total c (e :: es)) (ha : Accounted conf c e (c.next conf e)) :
    Accounts conf envs r total (c.next conf e) es := by
  have hsub : e.env.toList ⊆ envs ∧ es.filterMap TalkEvent.env ⊆ envs :=
    List.append_subset.mp (TalkEvent.env_cons e es ▸ h.seen)
  have hbudget := ha.budget.trans h.budget
  refine ⟨h.admits.2, hsub.2, ?_, ?_, hbudget, fun hg => ?_⟩
  · rw [ha.failRemotes, List.append_assoc]
    exact h.failRemotes
  · rw [ha.reports, List.append_assoc]
    exact h.reports
  · rcases ha.gaveUp hg with ⟨hg, hpast, herr, hend⟩ | hr | he | ⟨he, env, hmem, hlate⟩
    · refine (h.gaveUp hg).imp (fun hl => hpast ▸ hl) fun hx => ?_
      unfold Talk.Excused
      rw [herr, hend]
      exact hx
    · exact .inl (by omega)
    · exact .inr (.inl he)
    · exact .inr (.inr ⟨he, env, hsub.1 hmem, hlate⟩)

end Solo

theorem Talk.assign_fresh (pools : PoolProtocols P) (now : ℤ) (args : Talk.Args P) :
    let t := (Talk.assign pools now args).1
    t.failRemotes = [] ∧ t.past = [] ∧ t.retry = t.service.elim 0 Service.retry := by
  have h := Talk.assign_cases pools now args
  generalize Talk.assign pools now args = r at h
  have hinit : (args.init now).retry = (args.init now).service.elim 0 Service.retry := by
    unfold Talk.Args.init
    cases args.service <;> rfl
  cases h <;> exact ⟨rfl, rfl, hinit⟩

theorem Built.fresh {talks : List (Talk P)} (hb : Built talks) {t : Talk P} (ht : t ∈ talks) :
    t.failRemotes = [] ∧ t.past = [] ∧ t.retry = t.service.elim 0 Service.retry := by
  obtain ⟨i, hi⟩ := List.mem_iff_getElem?.mp ht
  obtain ⟨pools, now, args, rfl⟩ := hb.assigned i t hi
  obtain ⟨o, he⟩ := Talk.followAll_eq (talks.drop (i + 1)) (Talk.assign pools now args).1
  rw [he]
  exact Talk.assign_fresh pools now args

namespace AgentSlave

variable {talks : List (Talk P)}

/-- Every failed attempt of a run has been reported once and its remote is remembered,
and a talk has given up only after one attempt more than its service has retries, or
because of its deadline or the encoding. -/
structure FailuresAccounted (conf : ConfNormal) (ctxs : EventCtxPool) (talks : List (Talk P))
    (ls : List Label) : Prop where
  reports :
    let s := ((machine P conf).exec (start ctxs talks) ls).session
    s.logs.failures.Perm (talks.mapIdx fun i t =>
      Solo.allFailures conf (.start t) ((start ctxs talks).trace conf ls i)).flatten
  talks : ∀ i t₀ t, talks[i]? = some t₀ →
    ((machine P conf).exec (start ctxs talks) ls).session.talks[i]? = some t →
    t.failRemotes = Solo.allFailures conf (.start t₀) ((start ctxs talks).trace conf ls i) ∧
    ∀ service, t₀.service = some service → t.GaveUp →
      t.past.length + 1 = service.retry + 1 ∨ t.Excused (ls.filterMap Label.env)

/-- In every run in which no attempt is refused at once and no failure is reported through a
pointer that `GetFd` has overwritten. -/
theorem failures_accounted (conf : ConfNormal) (ctxs : EventCtxPool) (hb : Built talks)
    {ls : List Label} (hrun : (machine P conf).Admits (start ctxs talks) ls)
    (hconn : ∀ i t, talks[i]? = some t →
      (Solo.connected P conf).Admits (.start t) ((start ctxs talks).trace conf ls i)) :
    FailuresAccounted conf ctxs talks ls := by
  obtain ⟨hshows, hadm⟩ := shows_solos conf ctxs hb hrun
  have hsolo : ∀ i t, talks[i]? = some t → Solo.Accounts conf (ls.filterMap Label.env) t.retry
      (Solo.allFailures conf (.start t) ((start ctxs talks).trace conf ls i))
      ((Solo.machine P conf).exec (.start t) ((start ctxs talks).trace conf ls i)) [] := by
    intro i t ht
    obtain ⟨hfail, hpast, -⟩ := hb.fresh (List.mem_of_getElem? ht)
    refine Solo.invariant (I := Solo.Accounts conf _ t.retry _) ?_
      (Solo.start_ok (Built.startable hb t (List.mem_of_getElem? ht))) ?_ (hadm i t ht)
    · intro c e es hok he hok' h hstep
      exact h.step (hstep.accounted rfl hok he hok' h.admits.1.2)
    · exact {
        admits := hconn i t ht
        seen := (trace_env conf (start ctxs talks) ls i).subset
        failRemotes := by simp [Solo.start, hfail]
        reports := by simp [Solo.start, Log.failures, Log.empty]
        budget := by simp [Solo.start, hpast]
        gaveUp := fun hg => by
          have := (Built.startable hb t (List.mem_of_getElem? ht)).counted
          rw [show t.counted = true from hg.1] at this
          cases this }
  refine ⟨?_, fun i t₀ t ht₀ ht => ?_⟩
  · have hfailures : (solos conf ctxs talks ls).map (·.log.failures) = talks.mapIdx fun i t =>
        Solo.allFailures conf (.start t) ((start ctxs talks).trace conf ls i) := by
      apply List.ext_getElem?
      intro i
      rw [List.getElem?_map, List.getElem?_mapIdx]
      cases ht : talks[i]? with
      | none => simp [solos, ht]
      | some t =>
        rw [getElem?_solos ht]
        have hrep := (hsolo i t ht).reports
        rw [Solo.allFailures, List.append_nil] at hrep
        simp only [Option.map_some, hrep]
    rw [← hfailures, ← List.flatMap_def]
    have hperm := (hshows.reports.filter (!·.2)).map Prod.fst
    rw [List.filter_flatMap, List.map_flatMap] at hperm
    exact hperm
  · obtain rfl := Option.some.inj (ht.symm.trans (hshows.get (getElem?_solos ht₀)))
    have hacc := hsolo i t₀ ht₀
    refine ⟨by simpa [Solo.allFailures] using hacc.failRemotes, fun service hs hg => ?_⟩
    obtain ⟨-, -, hretry⟩ := hb.fresh (List.mem_of_getElem? ht₀)
    rw [hs] at hretry
    have hretry : t₀.retry = service.retry := hretry
    rcases hacc.gaveUp hg with h | h
    · exact .inl (by omega)
    · exact .inr h

theorem failures_accounted_retriedRun :
    FailuresAccounted ⟨50, 50, 50⟩ .empty [Rapid.oneTalk 1] retriedRun ∧
      ((start .empty [Rapid.oneTalk 1]).trace ⟨50, 50, 50⟩ retriedRun 0).length = 5 := by
  refine ⟨failures_accounted ⟨50, 50, 50⟩ .empty (Rapid.built_oneTalk 1) (by decide) ?_,
    by decide⟩
  intro i t ht
  match i with
  | 0 =>
    obtain rfl := Option.some.inj ht
    decide
  | i + 1 => simp at ht

def refusedRun : List Label := [.reset (Rapid.connected 0 [])]

theorem refusedRun_unaccounted :
    ¬ ∀ (P : Protocols) (conf : ConfNormal) (ctxs : EventCtxPool) (talks : List (Talk P)),
      Built talks → ∀ ls, (machine P conf).Admits (start ctxs talks) ls →
      FailuresAccounted conf ctxs talks ls := by
  intro h
  have h := h Rapid.protocols ⟨50, 50, 50⟩ .empty [Rapid.oneTalk 1] (Rapid.built_oneTalk 1)
    refusedRun (by decide)
  have hlength := h.reports.length_eq
  revert hlength
  decide

end AgentSlave

end Magneto
