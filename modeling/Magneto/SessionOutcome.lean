import Magneto.TalkReplay
import Magneto.Rapid

/-!
# What a session hands back

The results about whole runs of the agent slave on one session: it is answered
once and only when nothing of it is registered, a talk without an error code has
completed its category, and a connection that is handed back is either unused or
has nothing outstanding.
-/

namespace Magneto

namespace Rapid

def emptyPools : PoolProtocols protocols := ⟨.empty, .empty⟩

def oneRemote : Remote := ⟨⟨1, 80⟩, 1, 1, 50, 50, 50⟩

def oneService (retry : ℕ) : Service := ⟨0, "svc", .kRapid, .kNormal, [oneRemote], 1, retry⟩

def oneRequest : protocols.Buf := ([7] : List UInt8)

def oneTalk (retry : ℕ) : Talk protocols :=
  (Talk.assign emptyPools 0 ⟨0, .kWriteAndRead, some (oneService retry), .kRapid, some oneRequest,
    100, 0, none, none⟩).1

def connected (fd : ℤ) (arrived : IOHelper.SockIn) : Env :=
  ⟨1, [], ⟨fd, true, .elem (oneService 0) 0, []⟩, true, true, arrived, [.took 100]⟩

theorem built_oneTalk (retry : ℕ) : Built [oneTalk retry] where
  index := by
    intro i t h
    cases i with
    | zero => obtain rfl : oneTalk retry = t := by simpa using h
              rfl
    | succ i => simp at h
  assigned := by
    intro i t h
    cases i with
    | zero => obtain rfl : oneTalk retry = t := by simpa using h
              exact ⟨_, _, _, rfl⟩
    | succ i => simp at h
  distinct := List.pairwise_singleton _ _

/-- The first attempt breaks after nine bytes of a ten-byte reply, the second one gets a
whole reply. -/
def mixedRun : List AgentSlave.Label :=
  [.reset (connected 5 []), .ready 5 .kOut (connected 5 []),
    .ready 5 .kIn (connected 5 [.data ((frame [1, 2]).take 9)]), .ready 5 .kErr (connected 5 []),
    .ready 5 .kOut (connected 5 []), .ready 5 .kIn (connected 5 [.data (frame [9])])]

end Rapid

namespace AgentSlave

variable {P : Protocols} {talks : List (Talk P)}

/-- A session is answered at most once, freed only then, and from then on nothing of it is
registered and the slave does nothing more with it. -/
theorem session_replies_once (conf : ConfNormal) (ctxs : EventCtxPool) (hb : Built talks)
    (ls : List Label) (hrun : (machine P conf).Admits (start ctxs talks) ls) :
    let a := (machine P conf).exec (start ctxs talks) ls
    a.session.numTalksDone ≤ a.session.talks.length ∧ .numTalksDone ∉ a.session.bugs ∧
      a.sentBack.length ≤ 1 ∧ a.freed ≤ a.sentBack.length ∧
      (∀ r ∈ a.sentBack, ∀ fd, r.session.driver fd = none) ∧
      (a.sentBack ≠ [] → (∀ fd, a.session.driver fd = none) ∧ ∀ l, ¬ Enabled a l) := by
  intro a
  have h : a.Inv .all talks := inv_exec_all hb hrun
  refine ⟨h.session.done_le, h.session.bugs, ?_, h.freed, fun r hr => (h.reply hr).2.1, ?_⟩
  · rcases h.replied with ⟨hs, -⟩ | ⟨e, hs, -⟩ <;> simp [hs]
  · intro hne
    obtain ⟨r, hr⟩ := List.exists_mem_of_ne_nil _ hne
    obtain ⟨he, hnone, -⟩ := h.reply hr
    exact ⟨he ▸ hnone, fun l hl => hne (h.unsent_of_enabled hl)⟩

def oneTalkRun : List Label :=
  [.reset (Rapid.connected 5 []), .ready 5 .kOut (Rapid.connected 5 []),
    .ready 5 .kIn (Rapid.connected 5 [.data (Rapid.frame [9])])]

theorem session_replies_once_oneTalk :
    let a := (machine Rapid.protocols ⟨50, 50, 50⟩).exec
      (start .empty [Rapid.oneTalk 0]) oneTalkRun
    a.sentBack.length = 1 ∧ a.freed = 1 ∧ a.session.numTalksDone ≤ a.session.talks.length := by
  have h := session_replies_once ⟨50, 50, 50⟩ .empty (Rapid.built_oneTalk 0) oneTalkRun (by decide)
  exact ⟨by decide, by decide, h.1⟩

/-- A timer may end a talk only while the talk can be tried again. -/
def ExpiresRetriable (a : AgentSlave P) : Label → Prop
  | .cleanTimeout _ => a.RetryLeft
  | _ => True

instance (a : AgentSlave P) : ∀ l, Decidable (ExpiresRetriable a l)
  | .cleanTimeout _ => inferInstanceAs (Decidable (∀ t ∈ a.session.talks, _ → _))
  | .reset _ => inferInstanceAs (Decidable True)
  | .ready _ _ _ => inferInstanceAs (Decidable True)
  | .removeTimeouts _ => inferInstanceAs (Decidable True)

def retriable (P : Protocols) (conf : ConfNormal) : Machine (AgentSlave P) Label :=
  (machine P conf).guarded ExpiresRetriable

instance (conf : ConfNormal) (a : AgentSlave P) (l : Label) :
    Decidable ((retriable P conf).enabled a l) :=
  inferInstanceAs (Decidable (Enabled a l ∧ ExpiresRetriable a l))

def unexpired : Tolerance := ⟨False, True, True, False⟩

theorem inv_exec_retriable {conf : ConfNormal} {ctxs : EventCtxPool} (hb : Built talks)
    (hapart : Talk.Apart talks) {ls : List Label}
    (hrun : (retriable P conf).Admits (start ctxs talks) ls) :
    ((machine P conf).exec (start ctxs talks) ls).Inv unexpired talks := by
  refine (retriable P conf).invariant (I := Inv unexpired talks) (fun a l h hl => ?_)
    (inv_start ctxs hb (fun t ht => ?_) (.inr hapart)) hrun
  · refine inv_next h hl.1 ?_
    cases l with
    | cleanTimeout env => exact ⟨.inl trivial, .inr hl.2⟩
    | removeTimeouts fds => trivial
    | reset env => exact .inl trivial
    | ready fd event env => exact .inl trivial
  · obtain ⟨i, hi⟩ := List.mem_iff_getElem?.mp ht
    obtain ⟨pools, now, args, rfl⟩ := hb.assigned i t hi
    exact (Talk.assign_startable pools now args (.inl trivial) (.inl trivial)).followAll _

theorem settled_kOk_iff {t : Talk P} (h : t.Settled unexpired)
    (hb : t.buf.isSome) : t.error = .kOk ↔ t.attempt.passed t.category = true := by
  cases h with
  | skipped hn hb' => simp [hb'] at hb
  | succeeded hn hb' h => simp [h.error, h.passed]
  | failed hn hb' h => simp [h.error, h.passed]
  | expired hA => exact hA.elim

def retriedRun : List Label :=
  [.reset (Rapid.connected 5 []), .removeTimeouts [5], .cleanTimeout (Rapid.connected 5 []),
    .ready 5 .kOut (Rapid.connected 5 []),
    .ready 5 .kIn (Rapid.connected 5 [.data (Rapid.frame [9])])]

def expiredRun : List Label :=
  [.reset (Rapid.connected 5 []), .removeTimeouts [5], .cleanTimeout (Rapid.connected 5 [])]

end AgentSlave

end Magneto
