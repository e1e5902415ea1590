import Magneto.Server

/-!
# Client readers are held in one place and counted once

A slave takes a reader for every client it is handed, and the reader then wanders
through its contexts, a scheduler's mailbox and task queue, a procedure and a
`MsgDestruct`, until a slave gives it back. The procedure id that goes with it
says which slave that is. `Inv hand` accounts for the readers in all these places
and for those in `hand`, which a step has taken from one place and not yet put
into the next; a slave's counter is the number of readers that belong to it.
-/

namespace Magneto

structure HeldRead where
  idProcedure : ℕ
  id : ℕ
  deriving DecidableEq, Repr

def ClientReq.read (c : ClientReq) : HeldRead := ⟨c.idProcedure, c.protocolRead.id⟩

def SlaveMsg.reads : SlaveMsg → List HeldRead
  | .destruct c => [c.read]
  | _ => []

def SchedulerMsg.reads : SchedulerMsg → List HeldRead
  | .newReq c => [c.read]
  | _ => []

def ClientReq.reads : Option ClientReq → List HeldRead
  | some c => [c.read]
  | none => []

def SlaveThread.held (a : SlaveThread) : List HeldRead :=
  a.clients.map (·.client.read) ++ a.mailbox.flatMap SlaveMsg.reads

def SchedulerThread.held (t : SchedulerThread) : List HeldRead :=
  t.mailbox.flatMap SchedulerMsg.reads ++ t.taskQueue.flatMap SchedulerMsg.reads ++
    t.procedures.flatMap ClientReq.reads

def readsOf (n i : ℕ) (reads : List HeldRead) : List HeldRead :=
  reads.filter (fun r => r.idProcedure % n = i)

/-- The counter and the pool of slave `i` agree with the readers that are out. -/
structure Accounted (n i : ℕ) (a : SlaveThread) (reads : List HeldRead) : Prop where
  counter : a.numClientsKeepalive = (readsOf n i reads).length
  owned : a.poolRead.Owned ((readsOf n i reads).map HeldRead.id)

namespace Accounted

variable {n i : ℕ} {a a' : SlaveThread} {reads reads' : List HeldRead}

theorem perm (h : Accounted n i a reads) (hp : reads.Perm reads') : Accounted n i a reads' := by
  have hf : (readsOf n i reads).Perm (readsOf n i reads') := hp.filter _
  exact ⟨by rw [← hf.length_eq]; exact h.counter, h.owned.perm (hf.map _)⟩

theorem congr (h : Accounted n i a reads) (hn : a'.numClientsKeepalive = a.numClientsKeepalive)
    (hp : a'.poolRead = a.poolRead) : Accounted n i a' reads :=
  ⟨hn.trans h.counter, hp ▸ h.owned⟩

theorem other {r : HeldRead} (hr : r.idProcedure % n ≠ i) :
    Accounted n i a (r :: reads) ↔ Accounted n i a reads := by
  have hf : readsOf n i (r :: reads) = readsOf n i reads :=
    List.filter_cons_of_neg (by simpa using hr)
  constructor <;> intro h
  · exact ⟨hf ▸ h.counter, hf ▸ h.owned⟩
  · exact ⟨hf.symm ▸ h.counter, hf.symm ▸ h.owned⟩

theorem acquire (h : Accounted n i a reads) {id : ℕ} (hid : id % n = i)
    (c : Protocol.Category) :
    Accounted n i { a with
      numClientsKeepalive := a.numClientsKeepalive + 1
      poolRead := (a.poolRead.get c ()).2 } (⟨id, (a.poolRead.get c ()).1.id⟩ :: reads) := by
  have hf : readsOf n i (⟨id, (a.poolRead.get c ()).1.id⟩ :: reads) =
      ⟨id, (a.poolRead.get c ()).1.id⟩ :: readsOf n i reads :=
    List.filter_cons_of_pos (decide_eq_true hid)
  refine ⟨?_, ?_⟩
  · rw [hf, List.length_cons]
    show a.numClientsKeepalive + 1 = _
    have := h.counter
    omega
  · rw [hf]
    exact h.owned.get c ()

theorem release {c : ClientReq} (h : Accounted n i a (c.read :: reads))
    (hc : c.idProcedure % n = i) : Accounted n i (a.releaseClient c) reads := by
  have hf : readsOf n i (c.read :: reads) = c.read :: readsOf n i reads :=
    List.filter_cons_of_pos (decide_eq_true hc)
  have hcount := h.counter
  have howned := h.owned
  rw [hf, List.length_cons] at hcount
  rw [hf] at howned
  refine ⟨?_, howned.put⟩
  show a.numClientsKeepalive - 1 = _
  omega

end Accounted

namespace Server

variable {s s' : Server} {conf : ServerConf}

def held (s : Server) : List HeldRead :=
  s.slaves.flatMap SlaveThread.held ++ s.schedulers.flatMap SchedulerThread.held

theorem held_setSlave {i : ℕ} {a : SlaveThread} (h : s.slaves[i]? = some a) (a' : SlaveThread) :
    ((s.setSlave i a').held ++ a.held).Perm (s.held ++ a'.held) := by
  have hp := List.flatMap_set_perm SlaveThread.held h a'
  rw [List.perm_iff_count] at hp ⊢
  intro r
  have := hp r
  simp only [held, setSlave, List.count_append] at *
  omega

theorem held_setScheduler {k : ℕ} {t : SchedulerThread} (h : s.schedulers[k]? = some t)
    (t' : SchedulerThread) :
    ((s.setScheduler k t').held ++ t.held).Perm (s.held ++ t'.held) := by
  have hp := List.flatMap_set_perm SchedulerThread.held h t'
  rw [List.perm_iff_count] at hp ⊢
  intro r
  have := hp r
  simp only [held, setScheduler, List.count_append] at *
  omega

structure Local (n i : ℕ) (a : SlaveThread) : Prop where
  home : ∀ r ∈ a.held, r.idProcedure % n = i
  mails : ∀ m, SlaveMsg.readReq m ∈ a.mailbox → m.idProcedure % n = i
  answering : ∀ q, a.sending = some q → q.mail = true →
    ∃ p noFd mails, a.mailbox = .session p noFd :: mails

theorem Local.congr {n i : ℕ} {a a' : SlaveThread} (h : Local n i a)
    (hc : a'.clients = a.clients) (hm : a'.mailbox = a.mailbox) (hs : a'.sending = a.sending) :
    Local n i a' := by
  refine ⟨?_, hm ▸ h.mails, hs ▸ hm ▸ h.answering⟩
  rw [SlaveThread.held, hc, hm]
  exact h.home

structure Inv (hand : List HeldRead) (s : Server) : Prop where
  accounted : ∀ i a, s.slaves[i]? = some a → Accounted s.slaves.length i a (hand ++ s.held)
  slaves : ∀ i a, s.slaves[i]? = some a → Local s.slaves.length i a

variable {hand hand' : List HeldRead}

@[simp] theorem setSlave_length (s : Server) (i : ℕ) (a : SlaveThread) :
    (s.setSlave i a).slaves.length = s.slaves.length := List.length_set

theorem setSlave_self {i : ℕ} {a : SlaveThread} (h : s.slaves[i]? = some a) (a' : SlaveThread) :
    (s.setSlave i a').slaves[i]? = some a' :=
  List.getElem?_set_self (List.getElem?_eq_some_iff.mp h).1

@[simp] theorem setSlave_setSlave (s : Server) (i : ℕ) (a a' : SlaveThread) :
    (s.setSlave i a).setSlave i a' = s.setSlave i a' := by
  simp [setSlave]

theorem Inv.shiftSlave (h : Inv hand s) {i : ℕ} {a a' : SlaveThread} (hget : s.slaves[i]? = some a)
    (hn : a'.numClientsKeepalive = a.numClientsKeepalive) (hp : a'.poolRead = a.poolRead)
    (hheld : (hand' ++ a'.held).Perm (hand ++ a.held)) (hlocal : Local s.slaves.length i a') :
    Inv hand' (s.setSlave i a') := by
  have hperm : (hand ++ s.held).Perm (hand' ++ (s.setSlave i a').held) := by
    have hset := held_setSlave hget a'
    rw [List.perm_iff_count] at hset hheld ⊢
    intro r
    have h₁ := hset r
    have h₂ := hheld r
    simp only [List.count_append] at *
    omega
  have hcases : ∀ j b, (s.setSlave i a').slaves[j]? = some b →
      j = i ∧ b = a' ∨ j ≠ i ∧ s.slaves[j]? = some b := by
    intro j b hj
    by_cases hji : j = i
    · subst hji
      rw [setSlave_self hget] at hj
      exact .inl ⟨rfl, (Option.some.inj hj).symm⟩
    · rw [setSlave, List.getElem?_set_ne (Ne.symm hji)] at hj
      exact .inr ⟨hji, hj⟩
  refine ⟨fun j b hj => ?_, fun j b hj => ?_⟩ <;> rw [setSlave_length]
  · rcases hcases j b hj with ⟨rfl, rfl⟩ | ⟨-, hj⟩
    · exact ((h.accounted _ a hget).congr hn hp).perm hperm
    · exact (h.accounted j b hj).perm hperm
  · rcases hcases j b hj with ⟨rfl, rfl⟩ | ⟨-, hj⟩
    · exact hlocal
    · exact h.slaves j b hj

theorem Inv.shiftScheduler (h : Inv hand s) {k : ℕ} {t t' : SchedulerThread}
    (hget : s.schedulers[k]? = some t) (hheld : (hand' ++ t'.held).Perm (hand ++ t.held)) :
    Inv hand' (s.setScheduler k t') := by
  have hperm : (hand ++ s.held).Perm (hand' ++ (s.setScheduler k t').held) := by
    have hset := held_setScheduler hget t'
    rw [List.perm_iff_count] at hset hheld ⊢
    intro r
    have h₁ := hset r
    have h₂ := hheld r
    simp only [List.count_append] at *
    omega
  exact ⟨fun i a hi => (h.accounted i a hi).perm hperm, h.slaves⟩

theorem Inv.settle (h : Inv hand s) {i : ℕ} {a a' : SlaveThread} (hget : s.slaves[i]? = some a)
    (hheld : a'.held = a.held) (hlocal : Local s.slaves.length i a')
    (hself : Accounted s.slaves.length i a (hand ++ s.held) →
      Accounted s.slaves.length i a' (hand' ++ s.held))
    (hother : ∀ j ≠ i, ∀ b, Accounted s.slaves.length j b (hand ++ s.held) →
      Accounted s.slaves.length j b (hand' ++ s.held)) :
    Inv hand' (s.setSlave i a') := by
  have hperm : (s.setSlave i a').held.Perm s.held := by
    have hset := held_setSlave hget a'
    rw [hheld] at hset
    exact (List.perm_append_right_iff _).mp hset
  refine ⟨fun j b hj => ?_, fun j b hj => ?_⟩ <;> rw [setSlave_length]
  all_goals by_cases hji : j = i
  · subst hji
    obtain rfl : a' = b := by simpa [setSlave_self hget] using hj
    exact (hself (h.accounted _ a hget)).perm (hperm.symm.append_left _)
  · rw [setSlave, List.getElem?_set_ne (Ne.symm hji)] at hj
    exact (hother j hji b (h.accounted j b hj)).perm (hperm.symm.append_left _)
  · subst hji
    obtain rfl : a' = b := by simpa [setSlave_self hget] using hj
    exact hlocal
  · rw [setSlave, List.getElem?_set_ne (Ne.symm hji)] at hj
    exact h.slaves j b hj

theorem Inv.acquire (h : Inv hand s) {i : ℕ} {a : SlaveThread} (hget : s.slaves[i]? = some a)
    {id : ℕ} (hid : id % s.slaves.length = i) (c : Protocol.Category) :
    Inv (⟨id, (a.poolRead.get c ()).1.id⟩ :: hand) (s.setSlave i { a with
      numClientsKeepalive := a.numClientsKeepalive + 1
      poolRead := (a.poolRead.get c ()).2 }) :=
  h.settle hget rfl ((h.slaves i a hget).congr rfl rfl rfl) (fun hacc => hacc.acquire hid c)
    fun _ hj _ hacc => (Accounted.other fun he => hj (he.symm.trans hid)).mpr hacc

theorem Inv.release {c : ClientReq} (h : Inv (c.read :: hand) s) {i : ℕ} {a : SlaveThread}
    (hget : s.slaves[i]? = some a) (hc : c.idProcedure % s.slaves.length = i) :
    Inv hand (s.setSlave i (a.releaseClient c)) :=
  h.settle hget rfl ((h.slaves i a hget).congr rfl rfl rfl) (fun hacc => hacc.release hc)
    fun _ hj _ hacc => (Accounted.other fun he => hj (he.symm.trans hc)).mp hacc

theorem Inv.sendToSlave {m : SlaveMsg} (h : Inv (m.reads ++ hand) s) {id : ℕ}
    (hs : s.sendToSlave conf id m = some s')
    (hhome : ∀ r ∈ m.reads, r.idProcedure % s.slaves.length = id % s.slaves.length)
    (hmail : ∀ q, m = .readReq q → q.idProcedure % s.slaves.length = id % s.slaves.length) :
    Inv hand s' := by
  obtain ⟨a, hget, hs⟩ := Option.bind_eq_some_iff.mp hs
  split_ifs at hs
  obtain rfl := Option.some.inj hs
  have hheld : ({ a with mailbox := a.mailbox ++ [m] } : SlaveThread).held = a.held ++ m.reads := by
    simp [SlaveThread.held]
  have hlocal := h.slaves _ a hget
  refine h.shiftSlave hget rfl rfl ?_ ⟨?_, ?_, ?_⟩
  · rw [hheld, List.perm_iff_count]
    intro r
    simp only [List.count_append]
    omega
  · intro r hr
    rw [hheld] at hr
    rcases List.mem_append.mp hr with hr | hr
    · exact hlocal.home r hr
    · exact hhome r hr
  · intro q hq
    rcases List.mem_append.mp hq with hq | hq
    · exact hlocal.mails q hq
    · exact hmail q (List.mem_singleton.mp hq).symm
  · intro q hq hm
    obtain ⟨p, noFd, mails, hbox⟩ := hlocal.answering q hq hm
    exact ⟨p, noFd, mails ++ [m], by simp [hbox]⟩

theorem Inv.sendToScheduler {m : SchedulerMsg} (h : Inv (m.reads ++ hand) s) {k : ℕ}
    (hs : s.sendToScheduler conf k m = some s') : Inv hand s' := by
  obtain ⟨t, hget, hs⟩ := Option.bind_eq_some_iff.mp hs
  split_ifs at hs
  obtain rfl := Option.some.inj hs
  refine h.shiftScheduler hget ?_
  rw [List.perm_iff_count]
  intro r
  simp only [SchedulerThread.held, List.flatMap_append, List.flatMap_cons, List.flatMap_nil,
    List.count_append, List.append_nil]
  omega

theorem Inv.regClient {c : ClientReq} (h : Inv (c.read :: hand) s) {i : ℕ} {a : SlaveThread}
    (hget : s.slaves[i]? = some a) (hc : c.idProcedure % s.slaves.length = i) (env : ClientEnv)
    (timeleftMs : ℤ) : Inv hand (s.setSlave i (SlaveThread.regClient env a c timeleftMs)) := by
  have hlocal := h.slaves i a hget
  unfold SlaveThread.regClient
  split_ifs
  · refine h.shiftSlave hget rfl rfl ?_ ⟨?_, hlocal.mails, hlocal.answering⟩
    · simp only [SlaveThread.held, List.map_cons, List.cons_append]
      exact List.perm_middle
    · intro r hr
      rcases List.mem_cons.mp hr with rfl | hr
      · exact hc
      · exact hlocal.home r hr
  · exact h.release hget hc

theorem Inv.popMail (h : Inv hand s) {i : ℕ} {a : SlaveThread} (hget : s.slaves[i]? = some a)
    {m : SlaveMsg} {mails : List SlaveMsg} (hm : a.mailbox = m :: mails) (hs : a.sending = none) :
    Inv (m.reads ++ hand) (s.setSlave i { a with mailbox := mails }) := by
  have hlocal := h.slaves i a hget
  refine h.shiftSlave hget rfl rfl ?_ ⟨fun r hr => hlocal.home r ?_, fun q hq => ?_, ?_⟩
  · rw [List.perm_iff_count]
    intro r
    simp only [SlaveThread.held, hm, List.flatMap_cons, List.count_append]
    omega
  · simp only [SlaveThread.held, hm, List.flatMap_cons, List.mem_append] at hr ⊢
    tauto
  · exact hlocal.mails q (hm ▸ List.mem_cons_of_mem _ hq)
  · simp [hs]

theorem Inv.sendBackMsg (h : Inv [] s) {i : ℕ} {a : SlaveThread} (hget : s.slaves[i]? = some a)
    {p : ProcedureRef} {mail : Bool}
    (hmail : mail = true → ∃ p noFd mails, a.mailbox = .session p noFd :: mails)
    (sessions : List ProcedureRef) :
    Inv [] (s.sendBackMsg conf i { a with sessions := sessions } p mail) := by
  have hlocal := h.slaves i a hget
  have hdone : Inv [] (s.setSlave i { (if mail then
      { a with sessions := sessions, mailbox := a.mailbox.tail }
      else { a with sessions := sessions } : SlaveThread) with sending := none }) := by
    cases mail with
    | false =>
      exact h.shiftSlave hget rfl rfl (List.Perm.refl _) ⟨hlocal.home, hlocal.mails, by simp⟩
    | true =>
      obtain ⟨q, noFd, mails, hbox⟩ := hmail rfl
      have hheld : ({ a with
          sessions := sessions, mailbox := a.mailbox.tail, sending := none } : SlaveThread).held =
          a.held := by
        simp [SlaveThread.held, hbox, SlaveMsg.reads]
      refine h.shiftSlave hget rfl rfl (List.Perm.of_eq hheld) ⟨?_, fun m hm => ?_, by simp⟩
      · rw [if_pos rfl, hheld]
        exact hlocal.home
      · exact hlocal.mails m (List.mem_of_mem_tail hm)
  unfold Server.sendBackMsg
  dsimp only
  split
  · rename_i s' hs
    exact Inv.sendToScheduler (m := .session p.procedure) hdone hs
  · refine h.shiftSlave hget rfl rfl (List.Perm.refl _) ⟨hlocal.home, hlocal.mails, ?_⟩
    intro q hq hm
    obtain rfl := Option.some.inj hq
    exact hmail hm

theorem inv_slaveMail (h : Inv [] s) {i : ℕ} {a : SlaveThread} (hget : s.slaves[i]? = some a)
    (hs : a.sending = none) (env : ClientEnv) : Inv [] (s.slaveMail conf env i a) := by
  unfold slaveMail
  split
  · rename_i m mails hm
    have hid := (h.slaves i a hget).mails m (hm ▸ List.mem_cons_self)
    have h₁ := h.popMail hget hm hs
    have h₂ := h₁.acquire (setSlave_self hget _) (by rw [setSlave_length]; exact hid) m.category
    rw [setSlave_setSlave] at h₂
    have h₃ := Inv.regClient (c := ⟨m.idProcedure, m.fdClient, m.fdClientStarttimeSec,
      (a.poolRead.get m.category ()).1⟩) h₂ (setSlave_self hget _)
      (by rw [setSlave_length]; exact hid) env conf.rtimeoMs
    rw [setSlave_setSlave] at h₃
    exact h₃
  · rename_i d mails hm
    have hid : d.idProcedure % s.slaves.length = i :=
      (h.slaves i a hget).home d.read (by simp [SlaveThread.held, hm, SlaveMsg.reads])
    rw [← setSlave_length s i { a with mailbox := mails }] at hid
    have h₁ : Inv (d.read :: []) (s.setSlave i { a with mailbox := mails }) := h.popMail hget hm hs
    have hget₁ := setSlave_self hget { a with mailbox := mails }
    have hrel := h₁.release hget₁ hid
    rw [setSlave_setSlave] at hrel
    unfold SlaveThread.handleMsgDestruct
    dsimp only
    split_ifs
    · exact hrel
    · exact hrel
    · have hreg := h₁.regClient hget₁ hid env (min
        ((d.fdClientStarttimeSec + conf.clientKeepaliveSec - env.nowSec + 1) * 1000)
        conf.rtimeoMs)
      rw [setSlave_setSlave] at hreg
      exact hreg
  · rename_i p noFd mails hm
    have htaken : ∀ sessions stray, Inv [] (s.setSlave i
        { a with mailbox := mails, sessions := sessions, stray := stray }) := by
      intro sessions stray
      have h₁ : Inv [] (s.setSlave i { a with mailbox := mails }) := h.popMail hget hm hs
      have hget₁ := setSlave_self hget { a with mailbox := mails }
      have h₂ : Inv [] ((s.setSlave i { a with mailbox := mails }).setSlave i
          { a with mailbox := mails, sessions := sessions, stray := stray }) :=
        h₁.shiftSlave hget₁ rfl rfl (List.Perm.refl _) ((h₁.slaves i _ hget₁).congr rfl rfl rfl)
      rw [setSlave_setSlave] at h₂
      exact h₂
    split_ifs
    · exact htaken a.sessions (p :: a.stray)
    · exact htaken (p :: a.sessions) a.stray
    · exact h.sendBackMsg hget (fun _ => ⟨p, noFd, mails, hm⟩) a.sessions
  · exact h

theorem Inv.takeClient (h : Inv [] s) {i : ℕ} {a a' : SlaveThread} (hget : s.slaves[i]? = some a)
    {fd : ℤ} {ctx : ReadReqCtx} (ht : a.takeClient fd = some (ctx, a')) :
    Inv [ctx.client.read] (s.setSlave i a') ∧ ctx.client.idProcedure % s.slaves.length = i := by
  have hlocal := h.slaves i a hget
  obtain ⟨c, hfind, he⟩ := Option.map_eq_some_iff.mp ht
  simp only [Prod.mk.injEq] at he
  obtain ⟨rfl, rfl⟩ := he
  have hmem := List.mem_of_find?_eq_some hfind
  have hperm : a.clients.Perm
      (c :: a.clients.eraseP (fun ctx => ctx.client.fdClient = fd)) :=
    List.perm_cons_eraseP_of_find? hfind
  have hheld := (hperm.map fun x : ReadReqCtx => x.client.read).append_right
    (a.mailbox.flatMap SlaveMsg.reads)
  refine ⟨h.shiftSlave hget rfl rfl ?_ ⟨fun r hr => hlocal.home r ?_, hlocal.mails,
    hlocal.answering⟩, hlocal.home c.client.read ?_⟩
  · exact hheld.symm
  · exact hheld.symm.subset (List.mem_cons_of_mem _ hr)
  · exact List.mem_append_left _ (List.mem_map_of_mem hmem)

theorem handleReadReq_client (env : ClientEnv) (ctx : ReadReqCtx) :
    (SlaveThread.handleReadReq env ctx).2.client = ctx.client := by
  unfold SlaveThread.handleReadReq ReadReqCtx.checkTimeout
  dsimp only
  split_ifs <;> rfl

theorem inv_slaveRead (h : Inv [] s) {i : ℕ} {a a' : SlaveThread} (hget : s.slaves[i]? = some a)
    {fd : ℤ} {ctx : ReadReqCtx} (ht : a.takeClient fd = some (ctx, a')) (env : ClientEnv)
    (event : EventsDriver.Event) : Inv [] (s.slaveRead conf env event i ctx a') := by
  obtain ⟨h₁, hid⟩ := h.takeClient hget ht
  have hget₁ := setSlave_self hget a'
  rw [← setSlave_length s i a'] at hid
  have hclient := handleReadReq_client env ctx
  have hrel := h₁.release hget₁ hid
  rw [setSlave_setSlave] at hrel
  unfold slaveRead
  dsimp only
  rw [hclient]
  split_ifs
  · split
    · rename_i s' hs
      exact Inv.sendToScheduler (m := .newReq ctx.client) h₁ hs
    · exact hrel
  · have hlocal := h₁.slaves i a' hget₁
    have h₂ : Inv [] ((s.setSlave i a').setSlave i
        { a' with clients := (SlaveThread.handleReadReq env ctx).2 :: a'.clients }) := by
      refine h₁.shiftSlave hget₁ rfl rfl ?_ ⟨fun r hr => ?_, hlocal.mails, hlocal.answering⟩
      · simp only [SlaveThread.held, List.map_cons, hclient]
        exact List.Perm.refl _
      · simp only [SlaveThread.held, List.map_cons, hclient, List.cons_append] at hr
        rcases List.mem_cons.mp hr with rfl | hr
        · exact hid
        · exact hlocal.home r hr
    rw [setSlave_setSlave] at h₂
    exact h₂
  · exact hrel
  · exact hrel

theorem current_spec {t : SchedulerThread} {j : ℕ} {c : ClientReq} (h : t.current = some (j, c)) :
    t.procedures[j]? = some (some c) := by
  obtain ⟨j', -, hj⟩ := Option.bind_eq_some_iff.mp h
  obtain ⟨q, hq, he⟩ := Option.map_eq_some_iff.mp hj
  simp only [Prod.mk.injEq] at he
  obtain ⟨rfl, rfl⟩ := he
  exact Option.join_eq_some_iff.mp hq

theorem held_setProcedure {t : SchedulerThread} {j : ℕ} {q : Option ClientReq}
    (h : t.procedures[j]? = some q) (q' : Option ClientReq) (running : Option ℕ) (sending : Bool) :
    (({ t with procedures := t.procedures.set j q', running := running, sending := sending } :
      SchedulerThread).held ++ ClientReq.reads q).Perm (t.held ++ ClientReq.reads q') := by
  have hp := List.flatMap_set_perm ClientReq.reads h q'
  simp only [SchedulerThread.held, List.append_assoc]
  exact (hp.append_left _).append_left _

theorem inv_sendDestruct (h : Inv [] s) {k : ℕ} {t : SchedulerThread}
    (hget : s.schedulers[k]? = some t) {j : ℕ} {c : ClientReq} (hc : t.current = some (j, c)) :
    Inv [] (s.sendDestruct conf k t j c) := by
  have hheld : ((t.endProcedure j).held ++ [c.read]).Perm (t.held ++ []) :=
    held_setProcedure (current_spec hc) none none false
  have h₁ : Inv [c.read] (s.setScheduler k (t.endProcedure j)) := by
    refine h.shiftScheduler hget (List.perm_append_comm.trans ?_)
    rwa [List.append_nil] at hheld
  unfold sendDestruct
  split
  · rename_i s' hs
    refine Inv.sendToSlave (m := .destruct c) h₁ hs (fun r hr => ?_) (by simp)
    rw [List.mem_singleton.mp hr]
    rfl
  · exact h.shiftScheduler hget (List.Perm.refl _)

theorem held_runTask (lost : Bool) (t : SchedulerThread) : (t.runTask lost).held.Perm t.held := by
  unfold SchedulerThread.runTask
  split
  · rename_i c tasks ht
    rw [List.perm_iff_count]
    intro r
    simp only [SchedulerThread.held, ht, SchedulerMsg.reads, ClientReq.reads, List.flatMap_append,
      List.flatMap_cons, List.flatMap_nil, List.count_append, List.append_nil]
    omega
  · rename_i j tasks ht
    have htasks : ({ t with taskQueue := tasks } : SchedulerThread).held = t.held := by
      simp [SchedulerThread.held, ht, SchedulerMsg.reads]
    split
    · rename_i c hc
      have hget : t.procedures[j]? = some (some c) := Option.join_eq_some_iff.mp hc
      have hheld := held_setProcedure (t := { t with taskQueue := tasks }) hget
        (some (if lost then { c with fdClient := -1 } else c)) (some j) t.sending
      have hreads : ClientReq.reads (some (if lost then { c with fdClient := -1 } else c)) =
          ClientReq.reads (some c) := by
        cases lost <;> rfl
      rw [hreads, htasks] at hheld
      exact (List.perm_append_right_iff _).mp hheld
    · exact List.Perm.of_eq htasks
  · exact List.Perm.refl _

theorem inv_next {l : Label} (h : Inv [] s) (hl : s.Enabled l) : Inv [] (s.next conf l) := by
  have hcase : NextCase conf s l (s.next conf l) := next_cases hl
  generalize s.next conf l = s₁ at hcase ⊢
  cases hcase with
  | refused l => exact h
  | @accept m s' hs =>
    refine Inv.sendToSlave (m := .readReq m) h hs (by simp [SlaveMsg.reads]) fun q hq => ?_
    cases hq
    rfl
  | slaveMail hget hs => exact inv_slaveMail h hget hs _
  | slaveRead hget ht => exact inv_slaveRead h hget ht _ _
  | @slaveTimeout i fd a ctx a' hget ht =>
    obtain ⟨h₁, hid⟩ := h.takeClient hget ht
    have h₂ := h₁.release (setSlave_self hget a') (by rw [setSlave_length]; exact hid)
    rw [setSlave_setSlave] at h₂
    exact h₂
  | slaveSessionEnd hget => exact h.sendBackMsg hget (by simp) _
  | @slaveResend i a q hget hs =>
    exact h.sendBackMsg hget (fun hm => (h.slaves i a hget).answering q hs hm) a.sessions
  | schedulerReceive hget hm =>
    refine h.shiftScheduler hget ?_
    rw [List.perm_iff_count]
    intro r
    simp only [SchedulerThread.held, hm, List.flatMap_append, List.flatMap_cons,
      List.flatMap_nil, List.count_append, List.append_nil]
    omega
  | schedulerTask hget hrun => exact h.shiftScheduler hget (held_runTask _ _)
  | @schedulerOp k writeBack t j c s' hget hs hc hsend =>
    have h₁ : Inv [] (s.setScheduler k { t with running := none }) :=
      h.shiftScheduler hget (List.Perm.refl _)
    exact Inv.sendToSlave (m := .session ⟨k, j⟩ _) h₁ hsend (by simp [SlaveMsg.reads]) (by simp)
  | schedulerEnd hget hc => exact inv_sendDestruct h hget hc
  | schedulerResend hget hc hs => exact inv_sendDestruct h hget hc

theorem inv_init (numAgents numSchedulers : ℕ) : Inv [] (init numAgents numSchedulers) := by
  have hheld : (init numAgents numSchedulers).held = [] := by
    simp [held, init, SlaveThread.held, SlaveThread.init, SchedulerThread.held,
      SchedulerThread.init]
  have hslave : ∀ (i : ℕ) (a : SlaveThread),
      (init numAgents numSchedulers).slaves[i]? = some a → a = .init := by
    intro i a hi
    exact List.eq_of_mem_replicate (List.mem_of_getElem? hi)
  refine ⟨fun i a hi => ?_, fun i a hi => ?_⟩
  · rw [hheld, hslave i a hi]
    exact ⟨rfl, ObjectPool.owned_empty⟩
  · rw [hslave i a hi]
    exact ⟨by simp [SlaveThread.held, SlaveThread.init], by simp [SlaveThread.init],
      by simp [SlaveThread.init]⟩

/-- The counter of every slave is the number of readers it has taken and not been given back,
each of them is in one place only, and the readers that a slave has in its contexts and
mails are its own. -/
theorem clients_conserved (conf : ServerConf) (numAgents numSchedulers : ℕ) (ls : List Label)
    (hrun : (machine conf).Admits (init numAgents numSchedulers) ls) :
    let s := (machine conf).exec (init numAgents numSchedulers) ls
    ∀ (i : ℕ) (a : SlaveThread), s.slaves[i]? = some a →
      a.numClientsKeepalive = (readsOf s.slaves.length i s.held).length ∧
      a.numClientsKeepalive = (a.poolRead.taken.length : ℤ) - a.poolRead.given.length ∧
      0 ≤ a.numClientsKeepalive ∧
      a.poolRead.Owned ((readsOf s.slaves.length i s.held).map HeldRead.id) ∧
      ∀ r ∈ a.held, r.idProcedure % s.slaves.length = i := by
  intro s i a hi
  have h := (machine conf).invariant (I := Inv []) (fun _ _ h hl => inv_next h hl)
    (inv_init numAgents numSchedulers) hrun
  obtain ⟨hcount, howned⟩ := h.accounted i a hi
  rw [List.nil_append] at hcount howned
  have hlen := howned.balanced.length_eq
  rw [List.length_append, List.length_map] at hlen
  refine ⟨hcount, by omega, by omega, howned, (h.slaves i a hi).home⟩

def okEnv : ClientEnv := ⟨0, 0, true, true, 0, true, true⟩

def newClient (fd : ℤ) : List Label :=
  [.accept ⟨0, fd, .kRapid, 0⟩, .slaveMail 0 okEnv, .slaveRead 0 fd .kIn okEnv]

def lostClientRun : List Label :=
  newClient 10 ++ [.schedulerReceive 0, .schedulerTask 0 false, .schedulerOp 0 false,
    .slaveMail 0 okEnv, .slaveSessionEnd 0 ⟨0, 0⟩, .schedulerReceive 0, .schedulerTask 0 true,
      .schedulerEnd 0]

theorem clients_conserved_lostClientRun :
    let s := (machine ⟨4, 100, 60, 1000⟩).exec (init 2 1) lostClientRun
    s.slaves.map (·.numClientsKeepalive) = [1, 0] ∧
      ∀ (i : ℕ) (a : SlaveThread), s.slaves[i]? = some a →
        a.numClientsKeepalive = (readsOf s.slaves.length i s.held).length :=
  ⟨by decide, fun i a hi =>
    (clients_conserved ⟨4, 100, 60, 1000⟩ 2 1 lostClientRun (by decide) i a hi).1⟩

end Server

end Magneto
