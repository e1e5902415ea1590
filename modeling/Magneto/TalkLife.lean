import Magneto.AgentSlave
import Mathlib.Logic.Relation

/-!
# The life of a talk

The states a talk can be in between two steps of the agent slave: not started,
working on a connection, or settled. Defects of the source make further states
and changes possible; a `Tolerance` says which of them a statement allows, so that
one invariant serves the unrestricted runs and the runs that avoid a defect.
A `Move` is one change of what a talk has said and heard.
-/

namespace Magneto

variable {P : Protocols}

/-- The defects that a class of runs may show: a talk ended by its timer without an error
code, a talk that nobody drives, an event without a timer, a writer that two talks use. -/
structure Tolerance where
  expired : Prop
  orphan : Prop
  untimed : Prop
  shared : Prop

def Tolerance.all : Tolerance := ⟨True, True, True, True⟩

def TimeoOk (timeoMs : ℤ) : Prop := 0 ≤ timeoMs ∧ timeoMs < 2 ^ 31

structure Remote.TimeoOk (r : Remote) : Prop where
  rtimeo : Magneto.TimeoOk r.rtimeoMs
  wtimeo : Magneto.TimeoOk r.wtimeoMs

structure ConfNormal.TimeoOk (conf : ConfNormal) : Prop where
  ctimeo : Magneto.TimeoOk conf.ctimeoMs
  rtimeo : Magneto.TimeoOk conf.rtimeoMs
  wtimeo : Magneto.TimeoOk conf.wtimeoMs

instance (n : ℤ) : Decidable (TimeoOk n) := inferInstanceAs (Decidable (_ ∧ _))

instance (r : Remote) : Decidable r.TimeoOk :=
  decidable_of_iff (Magneto.TimeoOk r.rtimeoMs ∧ Magneto.TimeoOk r.wtimeoMs)
    ⟨fun h => ⟨h.1, h.2⟩, fun h => ⟨h.1, h.2⟩⟩

instance (conf : ConfNormal) : Decidable conf.TimeoOk :=
  decidable_of_iff (Magneto.TimeoOk conf.ctimeoMs ∧ Magneto.TimeoOk conf.rtimeoMs ∧
    Magneto.TimeoOk conf.wtimeoMs) ⟨fun h => ⟨h.1, h.2.1, h.2.2⟩, fun h => ⟨h.1, h.2, h.3⟩⟩

/-- The remotes that the pointer can denote, as far as `tmp_remotes_` has no say. -/
def RemoteRef.TimeoOk : RemoteRef → Prop
  | .elem service _ => ∀ r ∈ service.remotes, r.TimeoOk
  | .tmp _ => True

instance : ∀ ref : RemoteRef, Decidable ref.TimeoOk
  | .elem service _ => inferInstanceAs (Decidable (∀ r ∈ service.remotes, _))
  | .tmp _ => inferInstanceAs (Decidable True)

structure Env.TimeoOk (env : Env) : Prop where
  tmp : ∀ r ∈ env.tmpRemotes, r.TimeoOk
  remote : env.getFd.remote.TimeoOk
  got : ∀ r ∈ env.getFd.tmpRemotes, r.TimeoOk

instance (env : Env) : Decidable env.TimeoOk :=
  decidable_of_iff ((∀ r ∈ env.tmpRemotes, r.TimeoOk) ∧ env.getFd.remote.TimeoOk ∧
    ∀ r ∈ env.getFd.tmpRemotes, r.TimeoOk) ⟨fun h => ⟨h.1, h.2.1, h.2.2⟩, fun h => ⟨h.1, h.2, h.3⟩⟩

theorem RemoteRef.deref_timeoOk {tmp : List Remote} (htmp : ∀ r ∈ tmp, r.TimeoOk)
    {ref : RemoteRef} (h : ref.TimeoOk) {r : Remote} (hr : ref.deref tmp = some r) :
    r.TimeoOk := by
  cases ref with
  | elem service i => exact h r (List.mem_of_getElem? hr)
  | tmp i => exact htmp r (List.mem_of_getElem? hr)

namespace Talk

def TimeoOk (t : Talk P) : Prop := ∀ ref, t.remote = some ref → ref.TimeoOk

theorem TimeoOk.remoteIn {t : Talk P} (h : t.TimeoOk) {tmp : List Remote}
    (htmp : ∀ r ∈ tmp, r.TimeoOk) {r : Remote} (hr : t.remoteIn tmp = some r) : r.TimeoOk := by
  obtain ⟨ref, href, hderef⟩ := Option.bind_eq_some_iff.mp hr
  exact RemoteRef.deref_timeoOk htmp (h ref href) hderef

section follow

variable (u t : Talk P)

@[simp] theorem follow_noTalk : (u.follow t).noTalk = t.noTalk := rfl
@[simp] theorem follow_fd : (u.follow t).fd = t.fd := rfl
@[simp] theorem follow_buf : (u.follow t).buf = t.buf := rfl
@[simp] theorem follow_error : (u.follow t).error = t.error := rfl
@[simp] theorem follow_counted : (u.follow t).counted = t.counted := rfl
@[simp] theorem follow_attempt : (u.follow t).attempt = t.attempt := rfl

@[simp] theorem follow_isSome :
    (u.follow t).protocolWrite.isSome = t.protocolWrite.isSome := Option.isSome_map

@[simp] theorem follow_writeId : (u.follow t).writeId = t.writeId := by
  unfold writeId follow
  rw [Option.map_map]
  congr 1
  funext o
  cases u.protocolWrite with
  | none => rfl
  | some w => exact PoolObj.follow_id w o

variable {u t}

theorem follow_of_sees (h : t.writeId = u.writeId → t.protocolWrite = u.protocolWrite) :
    u.follow t = t := by
  have hw : t.protocolWrite.map (u.protocolWrite.elim id PoolObj.follow) = t.protocolWrite := by
    cases hu : u.protocolWrite with
    | none => exact Option.map_id'
    | some w =>
      cases ht : t.protocolWrite with
      | none => rfl
      | some o =>
        refine congrArg some ?_
        by_cases he : o.id = w.id
        · have hs : t.protocolWrite = u.protocolWrite := h (by simp [writeId, hu, ht, he])
          rw [hu, ht] at hs
          rw [Option.some.inj hs]
          exact PoolObj.follow_self w
        · exact PoolObj.follow_of_ne he
  rw [follow, hw]

theorem follow_of_ne (h : t.writeId ≠ u.writeId) : u.follow t = t :=
  follow_of_sees fun he => absurd he h

theorem follow_protocolWrite (h : t.writeId = u.writeId) :
    (u.follow t).protocolWrite = u.protocolWrite := by
  unfold follow
  unfold writeId at h
  cases hu : u.protocolWrite with
  | none =>
    rw [hu, Option.map_none, Option.map_eq_none_iff] at h
    rw [h]
    rfl
  | some w =>
    rw [hu, Option.map_some] at h
    obtain ⟨o, ho, he⟩ := Option.map_eq_some_iff.mp h
    rw [ho]
    exact congrArg some (PoolObj.follow_of_eq he)

theorem followAll_of_ne {us : List (Talk P)} (h : ∀ u ∈ us, t.writeId ≠ u.writeId) :
    followAll us t = t := by
  induction us with
  | nil => rfl
  | cons u us ih =>
    obtain ⟨hu, hus⟩ := List.forall_mem_cons.mp h
    rw [followAll, List.foldl_cons, follow_of_ne hu]
    exact ih hus

theorem followAll_cons (u : Talk P) (us : List (Talk P)) (t : Talk P) :
    followAll (u :: us) t = followAll us (u.follow t) := rfl

theorem followAll_eq (us : List (Talk P)) (t : Talk P) :
    ∃ o, followAll us t = { t with protocolWrite := o } := by
  induction us generalizing t with
  | nil => exact ⟨t.protocolWrite, rfl⟩
  | cons u us ih => exact ih (u.follow t)

@[simp] theorem followAll_service (us : List (Talk P)) (t : Talk P) :
    (followAll us t).service = t.service := by
  obtain ⟨o, he⟩ := followAll_eq us t
  rw [he]

@[simp] theorem followAll_fd (us : List (Talk P)) (t : Talk P) : (followAll us t).fd = t.fd := by
  obtain ⟨o, he⟩ := followAll_eq us t
  rw [he]

@[simp] theorem followAll_noTalk (us : List (Talk P)) (t : Talk P) :
    (followAll us t).noTalk = t.noTalk := by
  obtain ⟨o, he⟩ := followAll_eq us t
  rw [he]

@[simp] theorem followAll_writeId (us : List (Talk P)) (t : Talk P) :
    (followAll us t).writeId = t.writeId := by
  induction us generalizing t with
  | nil => rfl
  | cons u us ih => rw [followAll_cons, ih, follow_writeId]

end follow

/-- Two talks that point to one writer see it in one state. -/
def Coherent (talks : List (Talk P)) : Prop :=
  ∀ t ∈ talks, ∀ u ∈ talks, t.writeId = u.writeId → t.protocolWrite = u.protocolWrite

theorem followAll_protocolWrite {us : List (Talk P)} (h : Coherent us) {u t : Talk P}
    (hu : u ∈ us) (hid : t.writeId = u.writeId) :
    (followAll us t).protocolWrite = u.protocolWrite := by
  induction us generalizing u t with
  | nil => simp at hu
  | cons v us ih =>
    have hrest : Coherent us := fun a ha b hb =>
      h a (List.mem_cons_of_mem _ ha) b (List.mem_cons_of_mem _ hb)
    rw [followAll_cons]
    by_cases hin : ∃ x ∈ us, x.writeId = u.writeId
    · obtain ⟨x, hx, hxu⟩ := hin
      rw [ih hrest hx ((follow_writeId v t).trans (hid.trans hxu.symm))]
      exact h x (List.mem_cons_of_mem _ hx) u hu hxu
    · rcases List.mem_cons.mp hu with rfl | hu
      · rw [followAll_of_ne fun x hx he =>
          hin ⟨x, hx, he.symm.trans ((follow_writeId u t).trans hid)⟩]
        exact follow_protocolWrite hid
      · exact absurd ⟨u, hu, rfl⟩ hin

theorem coherent_of_followAll {talks : List (Talk P)}
    (h : ∀ (i : ℕ) (t : Talk P), talks[i]? = some t → ∃ x, t = followAll (talks.drop (i + 1)) x) :
    Coherent talks := by
  induction talks with
  | nil => simp [Coherent]
  | cons t talks ih =>
    have hrest : Coherent talks := ih fun i u hu => h (i + 1) u hu
    obtain ⟨x, hx⟩ := h 0 t rfl
    change t = followAll talks x at hx
    have hhead : ∀ u ∈ talks, t.writeId = u.writeId → t.protocolWrite = u.protocolWrite := by
      intro u hu hid
      rw [hx] at hid ⊢
      rw [followAll_writeId] at hid
      exact followAll_protocolWrite hrest hu hid
    intro a ha b hb hab
    rcases List.mem_cons.mp ha with rfl | hat <;> rcases List.mem_cons.mp hb with rfl | hbt
    · rfl
    · exact hhead b hbt hab
    · exact (hhead a hat hab.symm).symm
    · exact hrest a hat b hbt hab

/-- A writer is given to a second talk only if the first one did not encode. -/
def Apart (talks : List (Talk P)) : Prop :=
  talks.Pairwise fun a b => a.error = .kOk → ∀ i ∈ a.writeId, b.writeId ≠ some i

theorem Apart.error_of_same {talks : List (Talk P)} (h : Apart talks) :
    ∀ t ∈ talks, ∀ u ∈ talks, t.noTalk ≠ u.noTalk → t.writeId.isSome → t.writeId = u.writeId →
      t.error ≠ .kOk ∨ u.error ≠ .kOk := by
  have hrel : ∀ {a b : Talk P}, (a.error = .kOk → ∀ i ∈ a.writeId, b.writeId ≠ some i) →
      a.writeId.isSome → a.writeId = b.writeId → a.error ≠ .kOk := by
    intro a b hab hsome hid he
    obtain ⟨i, hi⟩ := Option.isSome_iff_exists.mp hsome
    exact hab he i hi (hid.symm.trans hi)
  intro t ht u hu hne hsome hid
  obtain ⟨i, hi, rfl⟩ := List.mem_iff_getElem.mp ht
  obtain ⟨j, hj, rfl⟩ := List.mem_iff_getElem.mp hu
  have hpair := List.pairwise_iff_getElem.mp h
  rcases lt_trichotomy i j with hij | rfl | hij
  · exact .inl (hrel (hpair i j hi hj hij) hsome hid)
  · exact absurd rfl hne
  · exact .inr (hrel (hpair j i hj hi hij) (hid ▸ hsome) hid.symm)

instance (talks : List (Talk P)) : Decidable (Apart talks) :=
  inferInstanceAs (Decidable (talks.Pairwise fun a b =>
    a.error = .kOk → ∀ i ∈ a.writeId, b.writeId ≠ some i))

structure Objects (t : Talk P) : Prop where
  buf : t.buf.isSome
  write : t.category ≠ .kReadOnly → t.protocolWrite.isSome
  read : t.category ≠ .kWriteOnly → t.protocolRead.isSome

/-- What the status says about the current attempt. -/
inductive Stage (t : Talk P) : Prop
  | conn (h : t.status = .kConn) (ha : t.attempt = .fresh)
  | write (h : t.status = .kWrite) (hc : t.category ≠ .kReadOnly)
      (hw : t.attempt.written = false)
  | read (h : t.status = .kRead) (hc : t.category ≠ .kWriteOnly)
      (hw : t.category = .kWriteAndRead → t.attempt.written = true)

structure Working (A : Tolerance) (t : Talk P) : Prop where
  error : t.error = .kOk
  fd : 0 < t.fd
  counted : t.counted = false
  decoded : t.attempt.decoded = false
  broken : t.attempt.broken = false
  objects : t.Objects
  stage : t.Stage
  timeo : A.untimed ∨ t.TimeoOk

inductive Startable (A : Tolerance) (t : Talk P) : Prop
  | skipped (hb : t.buf = none) (hs : t.status = .kEnd) (ha : t.attempt = .fresh)
      (hn : t.counted = false)
  | unencoded (hb : t.buf.isSome) (hs : t.status ≠ .kEnd) (he : t.error = .kEncode)
      (hfd : t.fd = -1) (ha : t.attempt = .fresh) (hn : t.counted = false)
  | ready (ho : t.Objects) (he : t.error = .kOk)
      (hs : t.status = if t.category = .kReadOnly then .kRead else .kWrite)
      (hfd : A.orphan ∨ 0 ≤ t.fd) (ht : A.untimed ∨ t.TimeoOk) (ha : t.attempt = .fresh)
      (hn : t.counted = false)

structure Succeeded (t : Talk P) : Prop where
  error : t.error = .kOk
  fd : 0 < t.fd
  passed : t.attempt.passed t.category = true

structure Failed (t : Talk P) : Prop where
  error : t.error ≠ .kOk
  fd : t.fd ≤ 0 ∨ t.attempt = .fresh
  passed : t.attempt.passed t.category = false

theorem Failed.setCounted {t : Talk P} (h : t.Failed) (b : Bool) :
    Failed { t with counted := b } := ⟨h.error, h.fd, h.passed⟩

structure Expired (t : Talk P) : Prop where
  error : t.error = .kOk
  fd : t.fd = -1
  passed : t.attempt.passed t.category = false

inductive Settled (A : Tolerance) (t : Talk P) : Prop
  | skipped (hn : t.counted = true) (hb : t.buf = none) (ha : t.attempt = .fresh)
  | succeeded (hn : t.counted = true) (hb : t.buf.isSome) (h : t.Succeeded)
  | failed (hn : t.counted = true) (hb : t.buf.isSome) (h : t.Failed)
  | expired (hA : A.expired) (hn : t.counted = true) (hb : t.buf.isSome) (h : t.Expired)

structure Orphan (t : Talk P) : Prop where
  counted : t.counted = false
  error : t.error = .kOk
  fd : t.fd < 0

def Active (A : Tolerance) (d : EventsDriver) (t : Talk P) : Prop :=
  t.Working A ∧ ∃ slot, d t.fd = some slot ∧ slot.ctx.noTalk = t.noTalk ∧
    (A.untimed ∨ slot.expireTimeMs.isSome)

inductive Started (A : Tolerance) (d : EventsDriver) (t : Talk P) : Prop
  | active (h : t.Active A d)
  | settled (hd : d t.fd = none) (h : t.Settled A)
  | orphan (hA : A.orphan) (hd : d t.fd = none) (h : t.Orphan)

theorem Working.not_passed {A : Tolerance} {t : Talk P} (h : t.Working A) :
    t.attempt.passed t.category = false := by
  have hd := h.decoded
  rcases h.stage with ⟨-, ha⟩ | ⟨-, hc, hw⟩ | ⟨-, hc, hw⟩
  · rw [ha]
    cases t.category <;> rfl
  · cases hk : t.category <;> simp_all [Attempt.passed]
  · cases hk : t.category <;> simp_all [Attempt.passed]

theorem Settled.counted {A : Tolerance} {t : Talk P} (h : t.Settled A) : t.counted = true := by
  cases h <;> assumption

theorem Startable.counted {A : Tolerance} {t : Talk P} (h : t.Startable A) :
    t.counted = false := by
  cases h <;> assumption

theorem Started.active_of_some {A : Tolerance} {d : EventsDriver} {t : Talk P}
    (h : t.Started A d) {slot : EventsDriver.Slot} (hd : d t.fd = some slot) :
    t.Working A ∧ slot.ctx.noTalk = t.noTalk ∧ (A.untimed ∨ slot.expireTimeMs.isSome) := by
  cases h with
  | active h =>
    obtain ⟨hw, slot', hd', hn, ht⟩ := h
    obtain rfl : slot' = slot := Option.some.inj (hd'.symm.trans hd)
    exact ⟨hw, hn, ht⟩
  | settled hd' => rw [hd'] at hd; cases hd
  | orphan _ hd' => rw [hd'] at hd; cases hd

theorem Started.congr {A : Tolerance} {d d' : EventsDriver} {t : Talk P} (h : t.Started A d)
    (hd : d' t.fd = d t.fd) : t.Started A d' := by
  cases h with
  | active h =>
    obtain ⟨hw, slot, hs, hn, ht⟩ := h
    exact .active ⟨hw, slot, hd.trans hs, hn, ht⟩
  | settled hn h => exact .settled (hd.trans hn) h
  | orphan hA hn h => exact .orphan hA (hd.trans hn) h

section follow

variable {A : Tolerance} {d : EventsDriver} {t : Talk P} (u : Talk P)

theorem Objects.follow (h : t.Objects) : (u.follow t).Objects :=
  ⟨h.buf, fun hc => (follow_isSome u t).trans (h.write hc), h.read⟩

theorem Stage.follow (h : t.Stage) : (u.follow t).Stage := by
  cases h with
  | conn h ha => exact .conn h ha
  | write h hc hw => exact .write h hc hw
  | read h hc hw => exact .read h hc hw

theorem Working.follow (h : t.Working A) : (u.follow t).Working A :=
  ⟨h.error, h.fd, h.counted, h.decoded, h.broken, h.objects.follow u, h.stage.follow u, h.timeo⟩

theorem Startable.follow (h : t.Startable A) : (u.follow t).Startable A := by
  cases h with
  | skipped hb hs ha hn => exact .skipped hb hs ha hn
  | unencoded hb hs he hfd ha hn => exact .unencoded hb hs he hfd ha hn
  | ready ho he hs hfd ht ha hn => exact .ready (ho.follow u) he hs hfd ht ha hn

theorem Startable.followAll (h : t.Startable A) (us : List (Talk P)) :
    (followAll us t).Startable A := by
  induction us generalizing t with
  | nil => exact h
  | cons u us ih => exact ih (h.follow u)

theorem Succeeded.follow (h : t.Succeeded) : (u.follow t).Succeeded := ⟨h.error, h.fd, h.passed⟩

theorem Settled.follow (h : t.Settled A) : (u.follow t).Settled A := by
  cases h with
  | skipped hn hb ha => exact .skipped hn hb ha
  | succeeded hn hb h => exact .succeeded hn hb (h.follow u)
  | failed hn hb h => exact .failed hn hb ⟨h.error, h.fd, h.passed⟩
  | expired hA hn hb h => exact .expired hA hn hb ⟨h.error, h.fd, h.passed⟩

theorem Started.follow (h : t.Started A d) : (u.follow t).Started A d := by
  cases h with
  | active h => exact .active ⟨h.1.follow u, h.2⟩
  | settled hd h => exact .settled hd (h.follow u)
  | orphan hA hd h => exact .orphan hA hd ⟨h.counted, h.error, h.fd⟩

end follow

structure Same (t u : Talk P) : Prop where
  category : u.category = t.category
  buf : u.buf = t.buf
  protocolWrite : u.protocolWrite = t.protocolWrite
  protocolRead : u.protocolRead = t.protocolRead
  attempt : u.attempt = t.attempt
  past : u.past = t.past
  encoded : u.encoded = t.encoded
  readied : u.readied = t.readied

structure Retried (t u : Talk P) : Prop where
  category : u.category = t.category
  buf : u.buf = t.buf
  protocolRead : u.protocolRead = t.protocolRead
  attempt : u.attempt = .fresh
  past : u.past = t.past ++ [t.attempt]
  id : u.writeId = t.writeId
  readied : u.readied = t.readied
  reencoded : u.error = .kOk → t.protocolWrite = none ∧ u.protocolWrite = none ∨
    ∃ w buf, t.protocolWrite = some w ∧ t.buf = some buf ∧
      (P.encode (P.resetWriter w.val buf)).1 = true ∧
      u.protocolWrite = some { w with val := (P.encode (P.resetWriter w.val buf)).2 } ∧
      u.encoded = some (P.encode (P.resetWriter w.val buf)).2

open AgentSlave (readTalk decodeTalk writeTalk)

inductive Move (A : Tolerance) : Talk P → Talk P → Prop
  | same {t u : Talk P} (h : Same t u) (he : u.error = .kOk → t.error = .kOk) : Move A t u
  | shared {t : Talk P} (u : Talk P) (h : A.shared ∨ t.error ≠ .kOk) : Move A t (u.follow t)
  | write {t : Talk P} {o : WriterObj P} (out : IOHelper.SockOut)
      (ho : t.protocolWrite = some o) (hw : t.attempt.written = false)
      (hb : t.attempt.broken = false) (he : t.error = .kOk) : Move A t (writeTalk t o out)
  | read {t : Talk P} {o : ReaderObj P} (inp : IOHelper.SockIn) (ho : t.protocolRead = some o)
      (hd : t.attempt.decoded = false) (hb : t.attempt.broken = false)
      (hr : (P.read o.val inp).ret ≠ 0) : Move A t (readTalk t o inp)
  | decode {t : Talk P} {o : ReaderObj P} (inp : IOHelper.SockIn) (ho : t.protocolRead = some o)
      (hd : t.attempt.decoded = false) (hb : t.attempt.broken = false)
      (hr : (P.read o.val inp).ret = 0) :
      Move A t (decodeTalk (readTalk t o inp) o (P.decode (P.read o.val inp).reader))
  | retry {t u : Talk P} (h : Retried t u) : Move A t u

abbrev Moves (A : Tolerance) : Talk P → Talk P → Prop := Relation.ReflTransGen (Move A)

variable {A : Tolerance} {t u : Talk P}

theorem Moves.same (h : Same t u) (he : u.error = .kOk → t.error = .kOk) : Moves A t u :=
  .single (.same h he)

theorem Moves.preserves {I : Talk P → Prop} (step : ∀ t u, I t → Move A t u → I u)
    (h : Moves A t u) (ht : I t) : I u := by
  induction h with
  | refl => exact ht
  | tail _ hm ih => exact step _ _ ih hm

theorem Moves.buf_eq (h : Moves A t u) : u.buf = t.buf := by
  refine Moves.preserves (I := fun v => v.buf = t.buf) ?_ h rfl
  intro v w hv hm
  cases hm with
  | same h => exact h.buf.trans hv
  | retry h => exact h.buf.trans hv
  | _ => exact hv

theorem Moves.category_eq (h : Moves A t u) : u.category = t.category := by
  refine Moves.preserves (I := fun v => v.category = t.category) ?_ h rfl
  intro v w hv hm
  cases hm with
  | same h => exact h.category.trans hv
  | retry h => exact h.category.trans hv
  | _ => exact hv

theorem Moves.ids_eq (h : Moves A t u) : u.writeId = t.writeId ∧ u.readId = t.readId := by
  refine Moves.preserves (I := fun v => v.writeId = t.writeId ∧ v.readId = t.readId) ?_ h ⟨rfl, rfl⟩
  rintro v w ⟨hw, hr⟩ hm
  cases hm with
  | same h =>
    exact ⟨by rw [writeId, h.protocolWrite]; exact hw, by rw [readId, h.protocolRead]; exact hr⟩
  | shared u => exact ⟨(follow_writeId u v).trans hw, hr⟩
  | retry h => exact ⟨h.id.trans hw, by rw [readId, h.protocolRead]; exact hr⟩
  | write out ho =>
    refine ⟨?_, hr⟩
    rw [← hw, writeId, writeId, ho]
    rfl
  | read inp ho =>
    refine ⟨hw, ?_⟩
    rw [← hr, readId, readId, ho]
    rfl
  | decode inp ho =>
    refine ⟨hw, ?_⟩
    rw [← hr, readId, readId, ho]
    rfl

end Talk

end Magneto
