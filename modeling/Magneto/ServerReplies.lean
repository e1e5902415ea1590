import Magneto.ServerSessions

/-!
# A session that is never answered

`Session::Reset` registers nothing for a procedure that writes back to a client whose
connection it has lost, and the procedure waits forever. Every other procedure that
waits has one session on its way: no step closes the connection of a client whose
procedure has a session out.
-/

namespace Magneto

def SlaveMsg.unanswered : SlaveMsg → List ProcedureRef
  | .session p true => [p]
  | _ => []

namespace SlaveThread

def unanswered (a : SlaveThread) : List ProcedureRef :=
  a.mailbox.flatMap SlaveMsg.unanswered ++ a.stray

theorem SameSessions.unanswered {a a' : SlaveThread} (h : SameSessions a a') :
    a'.unanswered = a.unanswered := by
  rw [SlaveThread.unanswered, h.mailbox, h.stray, SlaveThread.unanswered]

theorem posted_of_unanswered (a : SlaveThread) {p : ProcedureRef} (h : p ∈ a.unanswered) :
    p ∈ a.posted := by
  rcases List.mem_append.mp h with h | h
  · obtain ⟨m, hm, hp⟩ := List.mem_flatMap.mp h
    have hmem : p ∈ m.sessions := by
      cases m with
      | session q noFd =>
        cases noFd with
        | false => cases hp
        | true => exact hp
      | readReq m => cases hp
      | destruct c => cases hp
    exact List.mem_append_left _ (List.mem_append_left _
      (List.mem_append_left _ (List.mem_flatMap.mpr ⟨m, hm, hmem⟩)))
  · exact List.mem_append_right _ h

end SlaveThread

namespace Server

variable {s s' : Server} {conf : ServerConf}

/-- The procedure serves a client whose connection it has lost. -/
def LostClient (s : Server) (p : ProcedureRef) : Prop :=
  ∃ t ∈ s.schedulers[p.scheduler]?, ∃ c ∈ (t.procedures[p.procedure]?).join, c.fdClient < 0

def Unanswered (s : Server) : Prop :=
  ∀ p ∈ s.slaves.flatMap SlaveThread.unanswered, s.LostClient p

def KeepsLost (s : Server) (k : ℕ) (t t' : SchedulerThread) : Prop :=
  ∀ j, ⟨k, j⟩ ∈ s.slaves.flatMap SlaveThread.unanswered →
    ∀ c ∈ (t.procedures[j]?).join, c.fdClient < 0 →
      ∃ c' ∈ (t'.procedures[j]?).join, c'.fdClient < 0

theorem keepsLost_of_eq {k : ℕ} {t t' : SchedulerThread} (h : t'.procedures = t.procedures) :
    s.KeepsLost k t t' := fun _ _ c hc hfd => ⟨c, h ▸ hc, hfd⟩

theorem SessionInv.not_unanswered (h : SessionInv [] s) {k : ℕ} {t : SchedulerThread}
    (hget : s.schedulers[k]? = some t) {j : ℕ} (hrun : t.running = some j) :
    ⟨k, j⟩ ∉ s.slaves.flatMap SlaveThread.unanswered := by
  intro hmem
  obtain ⟨a, ha, hp⟩ := List.mem_flatMap.mp hmem
  have hone := h.one ⟨k, j⟩
  have hpos : 0 < (s.slaves.flatMap SlaveThread.posted).count ⟨k, j⟩ :=
    List.count_pos_iff.mpr (List.mem_flatMap.mpr ⟨a, ha, a.posted_of_unanswered hp⟩)
  have hw : t.waiting j = false := by simp [SchedulerThread.waiting, hrun]
  simp only [posted, wanted, hget, Option.elim_some, SchedulerThread.wanted, hw,
    Bool.false_eq_true, if_false] at hone
  omega

namespace Unanswered

theorem setSlave (h : Unanswered s) {i : ℕ} {a a' : SlaveThread} (hget : s.slaves[i]? = some a)
    (hsub : ∀ p ∈ a'.unanswered, p ∈ a.unanswered ∨ s.LostClient p) :
    Unanswered (s.setSlave i a') := by
  intro p hp
  obtain ⟨b, hb, hmem⟩ := List.mem_flatMap.mp hp
  rcases List.mem_or_eq_of_mem_set hb with hb | rfl
  · exact h p (List.mem_flatMap.mpr ⟨b, hb, hmem⟩)
  · rcases hsub p hmem with hmem | hlost
    · exact h p (List.mem_flatMap.mpr ⟨a, List.mem_of_getElem? hget, hmem⟩)
    · exact hlost

theorem same (h : Unanswered s) {i : ℕ} {a a' : SlaveThread} (hget : s.slaves[i]? = some a)
    (hsame : a'.unanswered = a.unanswered) : Unanswered (s.setSlave i a') :=
  h.setSlave hget fun _ hp => .inl (hsame ▸ hp)

theorem setScheduler (h : Unanswered s) {k : ℕ} {t t' : SchedulerThread}
    (hget : s.schedulers[k]? = some t) (hkeep : s.KeepsLost k t t') :
    Unanswered (s.setScheduler k t') := by
  intro p hp
  obtain ⟨t₀, ht₀, c, hc, hfd⟩ := h p hp
  obtain ⟨k', j⟩ := p
  by_cases hk : k' = k
  · subst hk
    have he : t = t₀ := Option.some.inj (hget.symm.trans ht₀)
    subst he
    obtain ⟨c', hc', hfd'⟩ := hkeep j hp c hc hfd
    have hself : (s.setScheduler k' t').schedulers[k']? = some t' :=
      List.getElem?_set_self (List.getElem?_eq_some_iff.mp hget).1
    exact ⟨t', hself, c', hc', hfd'⟩
  · have hne : (s.setScheduler k t').schedulers[k']? = s.schedulers[k']? :=
      List.getElem?_set_ne (Ne.symm hk)
    exact ⟨t₀, hne.trans ht₀, c, hc, hfd⟩

theorem sendToSlave (h : Unanswered s) {id : ℕ} {m : SlaveMsg}
    (hs : s.sendToSlave conf id m = some s') (hm : ∀ p ∈ m.unanswered, s.LostClient p) :
    Unanswered s' := by
  obtain ⟨a, hget, hs⟩ := Option.bind_eq_some_iff.mp hs
  split_ifs at hs
  cases hs
  refine h.setSlave hget fun p hp => ?_
  simp only [SlaveThread.unanswered, List.flatMap_append, List.flatMap_cons, List.flatMap_nil,
    List.append_nil, List.mem_append] at hp ⊢
  rcases hp with (hp | hp) | hp
  · exact .inl (.inl hp)
  · exact .inr (hm p hp)
  · exact .inl (.inr hp)

theorem sendToScheduler (h : Unanswered s) {k : ℕ} {m : SchedulerMsg}
    (hs : s.sendToScheduler conf k m = some s') : Unanswered s' := by
  obtain ⟨t, hget, hs⟩ := Option.bind_eq_some_iff.mp hs
  split_ifs at hs
  cases hs
  exact h.setScheduler hget (keepsLost_of_eq rfl)

theorem sendBackMsg (h : Unanswered s) {i : ℕ} {a b : SlaveThread}
    (hget : s.slaves[i]? = some b) (hsame : a.unanswered = b.unanswered) (p : ProcedureRef)
    (mail : Bool) : Unanswered (s.sendBackMsg conf i a p mail) := by
  have hdone : Unanswered (s.setSlave i { (if mail then
      { a with mailbox := a.mailbox.tail } else a : SlaveThread) with sending := none }) := by
    refine h.setSlave hget fun q hq => .inl (hsame ▸ ?_)
    cases mail with
    | false => exact hq
    | true =>
      simp only [SlaveThread.unanswered, if_true, List.mem_append] at hq ⊢
      rcases hq with hq | hq
      · obtain ⟨m, hm, hmem⟩ := List.mem_flatMap.mp hq
        exact .inl (List.mem_flatMap.mpr ⟨m, List.mem_of_mem_tail hm, hmem⟩)
      · exact .inr hq
  unfold Server.sendBackMsg
  dsimp only
  split
  · rename_i s' hs
    exact hdone.sendToScheduler hs
  · exact h.same hget hsame

theorem popMail (h : Unanswered s) {i : ℕ} {a a' : SlaveThread} (hget : s.slaves[i]? = some a)
    {m : SlaveMsg} {mails : List SlaveMsg} (hm : a.mailbox = m :: mails)
    (hsame : SlaveThread.SameSessions { a with mailbox := mails } a') :
    Unanswered (s.setSlave i a') := by
  refine h.setSlave hget fun p hp => .inl ?_
  rw [hsame.unanswered] at hp
  simp only [SlaveThread.unanswered, hm, List.flatMap_cons, List.mem_append] at hp ⊢
  exact hp.imp_left .inr

theorem slaveMail (h : Unanswered s) {i : ℕ} {a : SlaveThread} (hget : s.slaves[i]? = some a)
    (env : ClientEnv) : Unanswered (s.slaveMail conf env i a) := by
  unfold Server.slaveMail
  split
  · rename_i m mails hm
    have hsame := SlaveThread.sameSessions_regClient env
      { a with
        mailbox := mails
        numClientsKeepalive := a.numClientsKeepalive + 1
        poolRead := (a.poolRead.get m.category ()).2 }
      ⟨m.idProcedure, m.fdClient, m.fdClientStarttimeSec, (a.poolRead.get m.category ()).1⟩
      conf.rtimeoMs
    exact h.popMail hget hm ⟨hsame.mailbox, hsame.sessions, hsame.sending, hsame.stray⟩
  · rename_i d mails hm
    exact h.popMail hget hm (SlaveThread.sameSessions_handleMsgDestruct conf env _ d)
  · rename_i p noFd mails hm
    split_ifs with hno
    · refine h.setSlave hget fun q hq => .inl ?_
      simp only [SlaveThread.unanswered, hm, hno, SlaveMsg.unanswered, List.flatMap_cons,
        List.mem_append, List.mem_cons, List.not_mem_nil, or_false] at hq ⊢
      tauto
    · refine h.setSlave hget fun q hq => .inl ?_
      simp only [SlaveThread.unanswered, hm, List.flatMap_cons, List.mem_append] at hq ⊢
      exact hq.imp_left .inr
    · exact h.sendBackMsg hget rfl p true
  · exact h

theorem slaveRead (h : Unanswered s) {i : ℕ} {a a' : SlaveThread}
    (hget : s.slaves[i]? = some a) (hsame : a'.unanswered = a.unanswered) (ctx : ReadReqCtx)
    (env : ClientEnv) (event : EventsDriver.Event) :
    Unanswered (s.slaveRead conf env event i ctx a') := by
  have hrel : ∀ c, Unanswered (s.setSlave i (a'.releaseClient c)) := fun _ => h.same hget hsame
  unfold Server.slaveRead
  dsimp only
  split_ifs
  · split
    · rename_i s' hs
      exact (h.same hget hsame).sendToScheduler hs
    · exact hrel _
  · exact h.same hget hsame
  · exact hrel _
  · exact hrel _

theorem runTask (h : Unanswered s) {k : ℕ} {t : SchedulerThread}
    (hget : s.schedulers[k]? = some t) (lost : Bool) :
    Unanswered (s.setScheduler k (t.runTask lost)) := by
  refine h.setScheduler hget fun j _ c hc hfd => ?_
  unfold SchedulerThread.runTask
  split
  · have hlt : j < t.procedures.length := by
      by_contra hlen
      rw [List.getElem?_eq_none (Nat.le_of_not_lt hlen)] at hc
      cases hc
    exact ⟨c, by rw [List.getElem?_append_left hlt]; exact hc, hfd⟩
  · rename_i i tasks ht
    split
    · rename_i c' hc'
      have hlt : i < t.procedures.length :=
        (List.getElem?_eq_some_iff.mp (Option.join_eq_some_iff.mp hc')).1
      by_cases hij : i = j
      · subst hij
        have he : c' = c := Option.some.inj (hc'.symm.trans hc)
        subst he
        refine ⟨_, by rw [List.getElem?_set_self hlt]; exact rfl, ?_⟩
        split_ifs
        · exact neg_one_lt_zero
        · exact hfd
      · exact ⟨c, by rw [List.getElem?_set_ne hij]; exact hc, hfd⟩
    · exact ⟨c, hc, hfd⟩
  · exact ⟨c, hc, hfd⟩

theorem sendDestruct (h : Unanswered s) (hinv : SessionInv [] s) {k : ℕ} {t : SchedulerThread}
    (hget : s.schedulers[k]? = some t) {j : ℕ} {c : ClientReq} (hc : t.current = some (j, c)) :
    Unanswered (s.sendDestruct conf k t j c) := by
  have hend : Unanswered (s.setScheduler k (t.endProcedure j)) := by
    refine h.setScheduler hget fun j' hmem c' hc' hfd => ⟨c', ?_, hfd⟩
    have hne : j ≠ j' := by
      intro he
      exact hinv.not_unanswered hget (running_of_current hc) (he ▸ hmem)
    rw [SchedulerThread.endProcedure, List.getElem?_set_ne hne]
    exact hc'
  unfold Server.sendDestruct
  split
  · rename_i s' hs
    exact hend.sendToSlave hs (by simp [SlaveMsg.unanswered])
  · exact h.setScheduler hget (keepsLost_of_eq rfl)

theorem schedulerOp (h : Unanswered s) {k : ℕ} {t : SchedulerThread}
    (hget : s.schedulers[k]? = some t) {j : ℕ} {c : ClientReq} (hc : t.current = some (j, c))
    {writeBack : Bool} (hs : (s.setScheduler k { t with running := none }).sendToSlave conf
      c.idProcedure (.session ⟨k, j⟩ (writeBack && c.fdClient < 0)) = some s') :
    Unanswered s' := by
  have hidle : Unanswered (s.setScheduler k { t with running := none }) :=
    h.setScheduler hget (keepsLost_of_eq rfl)
  refine hidle.sendToSlave hs fun p hp => ?_
  cases hno : writeBack && c.fdClient < 0 with
  | false =>
    rw [hno] at hp
    cases hp
  | true =>
    rw [hno] at hp
    have he : p = ⟨k, j⟩ := List.mem_singleton.mp hp
    subst he
    simp only [Bool.and_eq_true, decide_eq_true_eq] at hno
    have hself : (s.setScheduler k { t with running := none }).schedulers[k]? =
        some { t with running := none } :=
      List.getElem?_set_self (List.getElem?_eq_some_iff.mp hget).1
    have hcur := current_spec hc
    exact ⟨_, hself, c, Option.join_eq_some_iff.mpr hcur, hno.2⟩

end Unanswered

theorem unanswered_init (numAgents numSchedulers : ℕ) :
    Unanswered (init numAgents numSchedulers) := by
  intro p hp
  obtain ⟨a, ha, hmem⟩ := List.mem_flatMap.mp hp
  rw [List.eq_of_mem_replicate ha] at hmem
  cases hmem

theorem unanswered_next {l : Label} (h : Unanswered s) (hinv : SessionInv [] s)
    (hl : s.Enabled l) : Unanswered (s.next conf l) := by
  have hcase : NextCase conf s l (s.next conf l) := next_cases hl
  generalize s.next conf l = s₁ at hcase ⊢
  cases hcase with
  | refused l => exact h
  | accept hs => exact h.sendToSlave hs (by simp [SlaveMsg.unanswered])
  | slaveMail hget _ => exact h.slaveMail hget _
  | slaveRead hget ht =>
    exact h.slaveRead hget (SlaveThread.sameSessions_takeClient ht).unanswered _ _ _
  | slaveTimeout hget ht => exact h.same hget (SlaveThread.sameSessions_takeClient ht).unanswered
  | @slaveSessionEnd i p a hget =>
    have hsame : ({ a with sessions := a.sessions.erase p } : SlaveThread).unanswered =
      a.unanswered := rfl
    exact h.sendBackMsg hget hsame p false
  | slaveResend hget _ => exact h.sendBackMsg hget rfl _ _
  | schedulerReceive hget _ => exact h.setScheduler hget (keepsLost_of_eq rfl)
  | schedulerTask hget _ => exact h.runTask hget _
  | schedulerOp hget _ hc hsend => exact h.schedulerOp hget hc hsend
  | schedulerEnd hget hc => exact h.sendDestruct hinv hget hc
  | schedulerResend hget hc _ => exact h.sendDestruct hinv hget hc

theorem posted_eq (s : Server) (p : ProcedureRef) : s.posted p = s.sessions p + s.strays p := by
  have hcount : ∀ l : List SlaveThread, (l.flatMap SlaveThread.posted).count p =
      (l.flatMap SlaveThread.sessionsOut).count p + (l.flatMap SlaveThread.stray).count p := by
    intro l
    induction l with
    | nil => rfl
    | cons a l ih =>
      simp only [List.flatMap_cons, List.count_append, ih, SlaveThread.posted]
      omega
  rw [posted, sessions, strays, hcount]
  omega

theorem Unanswered.stray (h : Unanswered s) {p : ProcedureRef} (hp : 0 < s.strays p) :
    s.LostClient p := by
  obtain ⟨a, ha, hmem⟩ := List.mem_flatMap.mp (List.count_pos_iff.mp hp)
  exact h p (List.mem_flatMap.mpr ⟨a, ha, List.mem_append_right _ hmem⟩)

/-- A procedure that waits has one session, on its way or, when it writes back to a client it has
lost, one that never ends; no other procedure has any. A scheduler resumes only procedures that
wait. -/
theorem sessions_conserved (conf : ServerConf) (numAgents numSchedulers : ℕ) (ls : List Label)
    (hrun : (machine conf).Admits (init numAgents numSchedulers) ls) :
    let s := (machine conf).exec (init numAgents numSchedulers) ls
    (∀ p, s.sessions p + s.strays p = s.wanted p) ∧ (∀ p, 0 < s.strays p → s.LostClient p) ∧
      ∀ (k : ℕ) (t : SchedulerThread), s.schedulers[k]? = some t → ∀ j ∈ t.replies,
        t.running ≠ some j ∧ ∃ c, t.procedures[j]? = some (some c) := by
  intro s
  obtain ⟨h, hlost⟩ : SessionInv [] s ∧ Unanswered s :=
    (machine conf).invariant (I := fun s => SessionInv [] s ∧ Unanswered s)
      (fun _ _ h hl => ⟨sessionInv_next h.1 hl, unanswered_next h.2 h.1 hl⟩)
      ⟨sessionInv_init numAgents numSchedulers, unanswered_init numAgents numSchedulers⟩ hrun
  refine ⟨fun p => ?_, fun p hp => hlost.stray hp, fun k t hget j hj => ?_⟩
  · rw [← posted_eq, ← h.one p, List.count_nil, Nat.zero_add]
  · have hw := h.waiting hget hj
    simp only [SchedulerThread.waiting, Bool.and_eq_true, decide_eq_true_eq] at hw
    obtain ⟨c, hc⟩ := Option.isSome_iff_exists.mp hw.2
    exact ⟨hw.1, c, Option.join_eq_some_iff.mp hc⟩

/-- Two procedures wait, one for a mail of the slave and one that has lost its client and writes
back to it again. -/
def twoWaitRun : List Label :=
  newClient 10 ++ newClient 11 ++ [.schedulerReceive 0, .schedulerReceive 0, .schedulerTask 0 false,
    .schedulerOp 0 true, .slaveMail 0 okEnv, .schedulerTask 0 false, .schedulerOp 0 false,
    .slaveSessionEnd 0 ⟨0, 0⟩, .schedulerReceive 0, .schedulerTask 0 true, .schedulerOp 0 true,
    .slaveMail 0 okEnv, .slaveMail 0 okEnv]

theorem sessions_conserved_twoWaitRun :
    let s := (machine ⟨4, 100, 60, 1000⟩).exec (init 1 1) twoWaitRun
    s.sessions ⟨0, 1⟩ = 1 ∧ s.strays ⟨0, 0⟩ = 1 ∧
      (∀ p, s.sessions p + s.strays p = s.wanted p) ∧ (∀ p, 0 < s.strays p → s.LostClient p) ∧
      ∀ (k : ℕ) (t : SchedulerThread), s.schedulers[k]? = some t → ∀ j ∈ t.replies,
        t.running ≠ some j ∧ ∃ c, t.procedures[j]? = some (some c) :=
  ⟨by decide, by decide, sessions_conserved ⟨4, 100, 60, 1000⟩ 1 1 twoWaitRun (by decide)⟩

end Server

end Magneto
