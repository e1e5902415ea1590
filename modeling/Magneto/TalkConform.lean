import Magneto.TalkStep
import Magneto.SessionOutcome

/-!
# The state machine of a talk

While a talk has a registered event, its status, its category and the direction
of the event agree, so that neither the default branch of `CheckSession_` nor
the assertion on the category in `HandleSessionEventWrite_` is ever reached.
-/

namespace Magneto

variable {P : Protocols}

open EventsDriver (Slot Direction)

def Talk.Status.direction (status : Talk.Status) : Direction :=
  if status = .kRead then .kIn else .kOut

/-- The assertions on the status and on the category of a talk. -/
def Bug.stateMachine : Bug → Bool
  | .talkStatus => true
  | .category => true
  | _ => false

structure Talk.Conforms (t : Talk P) (direction : Direction) : Prop where
  status : t.status = .kConn ∨ t.status = .kWrite ∨ t.status = .kRead
  direction : direction = .kIn ↔ t.status = .kRead
  readOnly : t.category = .kReadOnly → t.status ≠ .kWrite
  writeOnly : t.category = .kWriteOnly → t.status ≠ .kRead
  written : t.category = .kWriteAndRead → t.status = .kRead → t.attempt.written = true

theorem Talk.Working.conforms {A : Tolerance} {t : Talk P} (h : t.Working A) :
    t.Conforms t.status.direction := by
  rcases h.stage with ⟨hs, -⟩ | ⟨hs, hc, -⟩ | ⟨hs, hc, hw⟩
  · exact ⟨.inl hs, by simp [Status.direction, hs], by simp [hs], by simp [hs], by simp [hs]⟩
  · exact ⟨.inr (.inl hs), by simp [Status.direction, hs], by simp [hc], by simp [hs], by simp [hs]⟩
  · exact ⟨.inr (.inr hs), by simp [Status.direction, hs], by simp [hs], by simp [hc],
      fun hk _ => hw hk⟩

def Talk.Faces (t : Talk P) (o : Option Slot) : Prop :=
  ∀ slot ∈ o, slot.direction = t.status.direction

theorem Session.Opened.faces {conf : ConfNormal} {env : Env} {isRetry : Bool} {talk u : Talk P}
    {o : Option Slot} {δ : Log} (h : Opened conf env isRetry talk o δ u) :
    u.Faces o ∧ ∀ b ∈ δ.bugs, b.stateMachine = false := by
  cases h with
  | registered =>
    refine ⟨fun slot hs => ?_, by simp [Log.empty]⟩
    obtain rfl := Option.some.inj hs
    rfl
  | _ => exact ⟨by simp [Talk.Faces], by simp [Bug.stateMachine]⟩

theorem Session.Finished.faces {conf : ConfNormal} {env : Env} {succ : Bool} {talk u : Talk P}
    {o : Option Slot} {δ : Log} (h : Finished conf env talk succ o δ u) :
    u.Faces o ∧ ∀ b ∈ δ.bugs, b.stateMachine = false := by
  cases h with
  | again hr ho => exact ⟨ho.faces.1, by simpa [Log.append] using ho.faces.2⟩
  | _ => exact ⟨by simp [Talk.Faces], by simp⟩

theorem AgentSlave.Fired.stateMachine {env : Env} {slot : Slot} {talk : Talk P} {bugs : List Bug}
    (h : Fired env slot talk bugs) : ∀ b ∈ bugs, b.stateMachine = false := by
  rcases h with rfl | ⟨rfl, -⟩ <;> simp [Bug.stateMachine]

theorem AgentSlave.Served.faces {env : Env} {slot : Slot} {talk u : Talk P} {more : Bool}
    {o : Option Slot} {δ : Log} (h : Served env slot talk more o δ u) :
    u.Faces o ∧ ∀ b ∈ δ.bugs, b.stateMachine = false := by
  cases h with
  | wait hu hl ht hd hb =>
    refine ⟨fun slot hs => ?_, hb.stateMachine⟩
    obtain rfl := Option.some.inj hs
    exact hd
  | finish => exact ⟨by simp [Talk.Faces], by simp [Log.empty]⟩
  | fail hu he hb => exact ⟨by simp [Talk.Faces], hb.stateMachine⟩

structure Solo.Conforms (c : Solo P) : Prop where
  faces : c.talk.Faces c.slot
  bugs : ∀ b ∈ c.log.bugs, b.stateMachine = false

theorem Solo.Step.conforms {conf : ConfNormal} {c c' : Solo P} {e : TalkEvent (WriterObj P)}
    (h : Step conf c e c') (hc : c.Conforms) : c'.Conforms := by
  have hlog : ∀ {ε δ : Log}, (∀ b ∈ ε.bugs, b.stateMachine = false) →
      (∀ b ∈ δ.bugs, b.stateMachine = false) →
      ∀ b ∈ (ε.append δ).bugs, b.stateMachine = false := by
    intro ε δ hε hδ b hb
    rcases List.mem_append.mp hb with hb | hb
    · exact hε b hb
    · exact hδ b hb
  cases h with
  | skip => exact ⟨by simp [Talk.Faces], hc.bugs⟩
  | start env hb hs ho => exact ⟨ho.faces.1, hlog hc.bugs ho.faces.2⟩
  | wait event env hslot hs => exact ⟨hs.faces.1, hlog hc.bugs hs.faces.2⟩
  | finish event env hslot hs hm hu hf =>
    exact ⟨hf.faces.1, hlog (hlog hc.bugs hs.faces.2) hf.faces.2⟩
  | remove => exact ⟨by simp [Talk.Faces], hc.bugs⟩
  | expire env hf => exact ⟨hf.faces.1, hlog (hlog hc.bugs (by simp)) hf.faces.2⟩
  | share w => exact ⟨hc.faces, hc.bugs⟩

namespace AgentSlave

variable {talks : List (Talk P)}

/-- In every run every talk with a registered event conforms, and the default
branch of `CheckSession_` and the assertion on the category are not reached. -/
theorem registered_conforms (conf : ConfNormal) (ctxs : EventCtxPool) (hb : Built talks)
    {ls : List Label} (hrun : (machine P conf).Admits (start ctxs talks) ls) :
    let s := ((machine P conf).exec (start ctxs talks) ls).session
    (∀ t ∈ s.talks, ∀ slot, s.driver t.fd = some slot → t.Conforms slot.direction) ∧
      .talkStatus ∉ s.bugs ∧ .category ∉ s.bugs := by
  intro s
  obtain ⟨hshows, -⟩ := shows_solos conf ctxs hb hrun
  have hsolo : ∀ c ∈ solos conf ctxs talks ls, c.Conforms := by
    intro c hc
    refine solos_invariant (I := fun c _ => c.Conforms) ?_ hb hrun ?_ hc
    · intro c e es _ _ _ h hstep
      exact hstep.conforms h
    · intro i t _
      exact ⟨by simp [Talk.Faces, Solo.start], by simp [Solo.start, Log.empty]⟩
  have hbugs : ∀ b ∈ s.bugs, b.stateMachine = false := by
    intro b hbug
    obtain ⟨c, hc, hbc⟩ := hshows.bug hbug
    exact (hsolo c hc).bugs b hbc
  refine ⟨fun t ht slot hslot => ?_, fun h => ?_, fun h => ?_⟩
  · obtain ⟨c, hc, rfl, hcs⟩ := hshows.solo ht hslot
    have hdir : slot.direction = c.talk.status.direction := (hsolo c hc).faces slot.anon hcs
    rw [hdir]
    exact ((solos_ok hb hrun hc).working hcs).1.conforms
  · exact absurd (hbugs _ h) (by decide)
  · exact absurd (hbugs _ h) (by decide)

def connectedRun : List Label :=
  [.reset (Rapid.connected 5 []), .ready 5 .kOut (Rapid.connected 5 [])]

theorem registered_conforms_connectedRun :
    let s := ((machine Rapid.protocols ⟨50, 50, 50⟩).exec (start .empty [Rapid.oneTalk 0])
      connectedRun).session
    (s.driver 5).map (·.direction) = some .kIn ∧
      ∀ t ∈ s.talks, ∀ slot, s.driver t.fd = some slot → t.Conforms slot.direction :=
  ⟨by decide, (registered_conforms ⟨50, 50, 50⟩ .empty (Rapid.built_oneTalk 0)
    (show (machine Rapid.protocols _).Admits _ connectedRun by decide)).1⟩

end AgentSlave

end Magneto
