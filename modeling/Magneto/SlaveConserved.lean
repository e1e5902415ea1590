import Magneto.SlaveObjects
import Magneto.SessionOutcome

/-!
# Conservation over the runs of an agent slave

The invariant of the slave's machine: each of its two pools accounts for all its
objects, with the sessions, the clients and the running call as the holders. The
steps on clients keep it as they are; the steps on a session keep it when they
lose no object.
-/

namespace Magneto

variable {P : Protocols}

namespace Slave

open AgentSlave (noOrphan heldCtxs)

variable {conf : ConfNormal} {serverConf : ServerConf} {x : Slave P} {ids : List ℕ} {id : ℕ}

def sessionCtxs (x : Slave P) : List ℕ := x.sessions.flatMap fun p => heldCtxs p.2

def clientCtxs (x : Slave P) : List ℕ := (x.clients ++ x.expired).map ClientCtx.id

structure Inv (ids : List ℕ) (x : Slave P) : Prop where
  ctxs : x.poolEventCtxs.Accounted (ids ++ (x.sessionCtxs ++ x.clientCtxs))
  sessions : x.poolSessions.Accounted (x.sessions.map Prod.fst)
  each : ∀ p ∈ x.sessions, p.2.sentBack = [] ∧ ∃ talks, p.2.Inv noOrphan talks

/-- The steps that lose no context and no session. -/
def Kept (x : Slave P) : Label P → Prop
  | .mailSession talks =>
      talks ≠ [] ∧ ∀ t ∈ talks, t.fd < 0 → t.status = .kEnd ∨ t.error ≠ .kOk
  | .session sid l => ∀ a, x.session sid = some a → AgentSlave.SessionKept a l
  | _ => True

theorem inv_init : (init : Slave P).Inv [] where
  ctxs := ObjectPool.accounted_empty
  sessions := ObjectPool.accounted_empty
  each := by simp [init]

section clients

variable {env : ClientEnv}

theorem Inv.freeEventCtx (h : x.Inv (id :: ids)) : (x.freeEventCtx id).Inv ids where
  ctxs := h.ctxs.put
  sessions := h.sessions
  each := h.each

theorem Inv.releaseClient (h : x.Inv ids) (c : ClientReq) : (x.releaseClient c).Inv ids where
  ctxs := h.ctxs
  sessions := h.sessions
  each := h.each

theorem Inv.addClient (h : x.Inv (id :: ids)) (c : ReadReqCtx) :
    Inv ids { x with clients := ⟨id, c⟩ :: x.clients } where
  ctxs := by
    refine h.ctxs.perm (List.perm_middle.symm.trans (List.Perm.append_left ids ?_))
    exact List.perm_middle.symm
  sessions := h.sessions
  each := h.each

theorem Inv.takeClient (h : x.Inv ids) {fd : ℤ} {c : ClientCtx}
    (hc : x.clients.find? (isClient fd) = some c) :
    Inv (c.id :: ids) { x with clients := x.clients.eraseP (isClient fd) } where
  ctxs := by
    have hclients := ((List.perm_cons_eraseP_of_find? hc).append_right x.expired).map ClientCtx.id
    refine h.ctxs.perm (List.Perm.trans (List.Perm.append_left ids ?_) List.perm_middle)
    exact (hclients.append_left x.sessionCtxs).trans List.perm_middle
  sessions := h.sessions
  each := h.each

theorem inv_regClient (h : x.Inv []) (c : ClientReq) (timeleftMs : ℤ) :
    (regClient env x c timeleftMs).Inv [] := by
  have hget : Inv [(x.poolEventCtxs.get () ()).1.id]
      { x with poolEventCtxs := (x.poolEventCtxs.get () ()).2 } :=
    ⟨h.ctxs.get () (), h.sessions, h.each⟩
  unfold regClient
  dsimp only
  split_ifs
  · exact hget.addClient _
  · exact (hget.releaseClient c).freeEventCtx

theorem inv_handleMsgDestruct (h : x.Inv []) (d : ClientReq) :
    (handleMsgDestruct serverConf env x d).Inv [] := by
  unfold handleMsgDestruct
  dsimp only
  split_ifs
  · exact h.releaseClient d
  · exact h.releaseClient d
  · exact inv_regClient h d _

theorem inv_checkReadReq (event : EventsDriver.Event) (sent : Bool) {c : ClientCtx}
    (h : x.Inv [c.id]) : (checkReadReq env event sent x c).Inv [] := by
  unfold checkReadReq
  dsimp only
  split_ifs
  · exact h.freeEventCtx
  · exact (h.releaseClient _).freeEventCtx
  · exact h.addClient _
  · exact (h.releaseClient _).freeEventCtx
  · exact (h.releaseClient _).freeEventCtx

theorem inv_removeTimeouts (h : x.Inv []) (fds : List ℤ) : (x.removeTimeouts fds).Inv [] := by
  induction fds generalizing x with
  | nil => exact h
  | cons fd fds ih =>
    unfold removeTimeouts
    split
    · rename_i c hc
      refine ih ⟨(h.takeClient hc).ctxs.perm ?_, h.sessions, h.each⟩
      -- the context moves from the clients to the end of the expired ones
      have hmove := List.perm_append_singleton c (x.clients.eraseP (isClient fd) ++ x.expired)
      rw [List.append_assoc] at hmove
      show (c.id :: (x.sessionCtxs ++ _)).Perm (x.sessionCtxs ++ _)
      refine List.perm_middle.symm.trans (List.Perm.append_left x.sessionCtxs ?_)
      exact hmove.symm.map ClientCtx.id
    · exact ih h

theorem inv_cleanTimeout {c : ClientCtx} {cs : List ClientCtx} (h : x.Inv [])
    (he : x.expired = c :: cs) :
    (({ x with expired := cs }.releaseClient c.ctx.client).freeEventCtx c.id).Inv [] := by
  have htake : Inv [c.id] { x with expired := cs } := by
    refine ⟨h.ctxs.perm ?_, h.sessions, h.each⟩
    rw [clientCtxs, he]
    have hmove : (x.clients ++ c :: cs).Perm (c :: (x.clients ++ cs)) := List.perm_middle
    exact ((hmove.map ClientCtx.id).append_left x.sessionCtxs).trans List.perm_middle
  exact (htake.releaseClient _).freeEventCtx

end clients

section sessions

theorem inv_getSession {talks : List (Talk P)} (h : x.Inv []) (hb : Built talks)
    (hkept : x.Kept (.mailSession talks)) : (x.getSession talks).Inv [] where
  ctxs := by
    have hheld := AgentSlave.heldCtxs_start x.poolEventCtxs talks
    refine h.ctxs.perm (.of_eq ?_)
    show x.sessionCtxs ++ _ = (heldCtxs _ ++ x.sessionCtxs) ++ _
    rw [hheld]
    rfl
  sessions := h.sessions.get () ()
  each := by
    intro p hp
    rcases List.mem_cons.mp hp with rfl | hp
    · exact ⟨(AgentSlave.start_unsent _ hkept.1).1,
        talks, AgentSlave.inv_start_noOrphan _ hb hkept.2⟩
    · exact h.each p hp

theorem Inv.of_session (h : x.Inv []) {sid : ℕ} {a : AgentSlave P} (ha : x.session sid = some a) :
    a.session.poolEventCtxs = x.poolEventCtxs ∧ a.sentBack = [] ∧
      (∃ talks, a.Inv noOrphan talks) ∧
      x.sessionCtxs.Perm (heldCtxs a ++ (x.sessions.eraseP (fun p => p.1 = sid)).flatMap
        fun p => heldCtxs p.2) ∧
      (x.sessions.map Prod.fst).Perm
        (sid :: (x.sessions.eraseP (fun p => p.1 = sid)).map Prod.fst) := by
  obtain ⟨p, hp, rfl⟩ := Option.map_eq_some_iff.mp ha
  have hperm := List.perm_cons_eraseP_of_find? hp
  have hid : p.1 = sid := by simpa using List.find?_some hp
  obtain ⟨hs, talks, hinv⟩ := h.each p (List.mem_of_find?_eq_some hp)
  refine ⟨rfl, hs, ⟨talks, hinv.withPool hs _⟩, hperm.flatMap_right _, ?_⟩
  have hmap := hperm.map Prod.fst
  rw [List.map_cons, hid] at hmap
  exact hmap

theorem inv_setSession (h : x.Inv []) {sid : ℕ} {a : AgentSlave P} {l : AgentSlave.Label}
    (ha : x.session sid = some a) (hl : AgentSlave.Enabled a l)
    (hkept : AgentSlave.SessionKept a l) :
    (x.setSession sid (x.sessions.eraseP (fun p => p.1 = sid))
      (AgentSlave.next conf a l)).Inv [] := by
  obtain ⟨hpool, hs, ⟨talks, hinv⟩, hctxs, hids⟩ := h.of_session ha
  generalize hrest : x.sessions.eraseP (fun p => p.1 = sid) = rest at hctxs hids ⊢
  have hinv' : (AgentSlave.next conf a l).Inv noOrphan talks :=
    AgentSlave.inv_next hinv hl (AgentSlave.tolerated_of trivial trivial conf a l)
  have hacc : (AgentSlave.next conf a l).session.poolEventCtxs.Accounted
      (heldCtxs (AgentSlave.next conf a l) ++
        ((rest.flatMap fun p => heldCtxs p.2) ++ x.clientCtxs)) := by
    refine AgentSlave.next_accounted hinv hl hkept (hpool ▸ h.ctxs.perm ?_)
    rw [List.nil_append, ← List.append_assoc]
    exact hctxs.append_right _
  have hothers : ∀ p ∈ rest, p.2.sentBack = [] ∧ ∃ talks, p.2.Inv noOrphan talks :=
    fun p hp => h.each p (List.mem_of_mem_eraseP (hrest ▸ hp))
  unfold setSession
  dsimp only
  split_ifs with hf
  · refine ⟨hacc.perm (.of_eq ?_), h.sessions.perm hids, ?_⟩
    · exact (List.append_assoc _ _ _).symm
    · intro p hp
      rcases List.mem_cons.mp hp with rfl | hp
      · exact ⟨AgentSlave.next_unsent hinv hl hkept hf, talks, hinv'⟩
      · exact hothers p hp
  · rw [hinv'.heldCtxs_of_freed hf] at hacc
    exact ⟨hacc, (h.sessions.perm hids).put, hothers⟩

end sessions

theorem inv_next {l : Label P} (h : x.Inv []) (hl : Enabled x l) (hkept : Kept x l) :
    (next conf serverConf x l).Inv [] := by
  cases l with
  | mailSession talks => exact inv_getSession h hl.2 hkept
  | session sid l =>
    obtain ⟨⟨a, ha, hen⟩, -⟩ := hl
    have ha' : x.session sid = some a := ha
    simp only [next, ha', Option.elim_some]
    exact inv_setSession h ha' hen (hkept a ha')
  | mailReadReq m env =>
    unfold next handleMsgReadReq
    apply inv_regClient
    exact ⟨h.ctxs, h.sessions, h.each⟩
  | mailDestruct d env => exact inv_handleMsgDestruct h d
  | readReq fd event env sent =>
    simp only [next]
    cases hc : x.clients.find? (isClient fd) with
    | none => exact h
    | some c => exact inv_checkReadReq event sent (h.takeClient hc)
  | removeTimeouts fds => exact inv_removeTimeouts h fds
  | cleanTimeout =>
    simp only [next]
    split
    · rename_i c cs he
      exact inv_cleanTimeout h he
    · exact h

theorem Inv.mem_ctxs_iff (h : x.Inv []) (hidle : x.Idle) (id : ℕ) :
    id ∈ x.sessionCtxs ++ x.clientCtxs ↔ x.Registered id := by
  have hsession : id ∈ x.sessionCtxs ↔
      ∃ p ∈ x.sessions, ∃ fd slot, p.2.session.driver fd = some slot ∧ slot.ctx.id = id := by
    rw [sessionCtxs, List.mem_flatMap]
    refine exists_congr fun p => and_congr_right fun hp => ?_
    obtain ⟨-, talks, hinv⟩ := h.each p hp
    exact hinv.mem_heldCtxs_iff (hidle.1 p hp) id
  rw [List.mem_append, hsession, clientCtxs, hidle.2, List.append_nil, List.mem_map]
  rfl

theorem Inv.mem_sessions_iff (h : x.Inv []) (hidle : x.Idle) (sid : ℕ) :
    sid ∈ x.sessions.map Prod.fst ↔ x.Referenced sid := by
  constructor
  · intro hsid
    obtain ⟨⟨sid, a⟩, hp, rfl⟩ := List.mem_map.mp hsid
    obtain ⟨hs, talks, hinv⟩ := h.each _ hp
    exact ⟨a, hp, hs, hinv.exists_registered hs (hidle.1 _ hp)⟩
  · rintro ⟨a, hp, -⟩
    exact List.mem_map.mpr ⟨_, hp, rfl⟩

theorem Inv.conserved (h : x.Inv []) (hidle : x.Idle) : x.Conserved where
  ctxs := by
    intro id hid
    rw [← h.mem_ctxs_iff hidle]
    exact h.ctxs.settled hid
  sessions := by
    intro sid hsid
    rw [← h.mem_sessions_iff hidle]
    exact h.sessions.settled hsid

/-- In every run that loses no object, between two calls of the slave each context that was ever
taken is registered or back once, and each session is referenced by an event or back once. -/
theorem objects_conserved (conf : ConfNormal) (serverConf : ServerConf) (ls : List (Label P))
    (hrun : ((machine P conf serverConf).guarded Kept).Admits init ls)
    (hidle : ((machine P conf serverConf).exec init ls).Idle) :
    ((machine P conf serverConf).exec init ls).Conserved :=
  (((machine P conf serverConf).guarded Kept).invariant (I := Inv [])
    (fun _ _ h hl => inv_next h hl.1 hl.2) inv_init hrun).conserved hidle

def oneSessionRun : List (Label Rapid.protocols) :=
  [.mailSession [Rapid.oneTalk 0], .session 0 (.reset (Rapid.connected 5 [])),
    .session 0 (.ready 5 .kOut (Rapid.connected 5 [])),
    .session 0 (.ready 5 .kIn (Rapid.connected 5 [.data (Rapid.frame [9])]))]

theorem idle_init : (init : Slave P).Idle := ⟨by simp [init], rfl⟩

theorem objects_conserved_oneSession :
    let x := (machine Rapid.protocols ⟨50, 50, 50⟩ ⟨50, 50, 50, 50⟩).exec init oneSessionRun
    x.poolEventCtxs.taken = [0] ∧ x.poolSessions.taken = [0] ∧ x.Conserved := by
  refine ⟨by decide, by decide, objects_conserved ⟨50, 50, 50⟩ ⟨50, 50, 50, 50⟩ oneSessionRun
    ⟨⟨⟨idle_init, Rapid.built_oneTalk 0⟩, by simp, by decide⟩,
      ⟨⟨⟨_, rfl, by decide⟩, by simp [AgentSlave.Label.isReady]⟩, ?_⟩,
      ⟨⟨⟨_, rfl, by decide⟩, fun _ => ⟨by decide, rfl⟩⟩, ?_⟩,
      ⟨⟨⟨_, rfl, by decide⟩, fun _ => ⟨by decide, rfl⟩⟩, ?_⟩, trivial⟩ ⟨by decide, rfl⟩⟩
  · intro a ha
    obtain rfl := Option.some.inj ha
    intro i t hi ht
    obtain rfl : 0 = i := Pc.reset.inj hi
    obtain rfl := Option.some.inj ht
    exact ⟨fun _ => .inr (.inr (.inr ⟨by decide, rfl⟩)), fun _ => .inr ⟨by decide, by decide,
      by decide, by decide, rfl⟩⟩
  · intro a ha
    obtain rfl := Option.some.inj ha
    intro slot t hd ht
    obtain rfl := Option.some.inj hd
    obtain rfl := Option.some.inj ht
    intro hmore
    exact absurd hmore (by decide)
  · intro a ha
    obtain rfl := Option.some.inj ha
    intro slot t hd ht
    obtain rfl := Option.some.inj hd
    obtain rfl := Option.some.inj ht
    intro _ herror
    exact absurd (by decide) herror

def late : Env := { Rapid.connected 5 [] with now := 100 }

def lateRun : List (Label Rapid.protocols) :=
  [.mailSession [Rapid.oneTalk 0], .session 0 (.reset late)]

/-- A mail that is read after the deadline of its talk costs a context and a session. -/
theorem lateTalk_not_conserved :
    ¬ ∀ (P : Protocols) (conf : ConfNormal) (serverConf : ServerConf) (ls : List (Label P)),
      (machine P conf serverConf).Admits init ls →
      ((machine P conf serverConf).exec init ls).Idle →
        ((machine P conf serverConf).exec init ls).Conserved := by
  intro h
  have hctx := (h Rapid.protocols ⟨50, 50, 50⟩ ⟨50, 50, 50, 50⟩ lateRun
    ⟨⟨idle_init, Rapid.built_oneTalk 0⟩,
      ⟨⟨_, rfl, by decide⟩, by simp [AgentSlave.Label.isReady]⟩, trivial⟩
    ⟨by decide, rfl⟩).ctxs 0 (by decide)
  rcases hctx with ⟨⟨p, hp, fd, slot, hd, -⟩ | ⟨c, hc, -⟩, -⟩ | ⟨hcount, -⟩
  · obtain rfl := List.mem_singleton.mp hp
    cases hd
  · cases hc
  · revert hcount
    decide

end Slave

end Magneto
