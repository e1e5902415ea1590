import Magneto.MsgDestruct
import Magneto.Lib.Ledger

/-!
# The hand-over of the cached connections

Request procedures and agent slaves, as far as the service caches go. A procedure works on its
cache, and at its end `Reset_` builds the message, sends it until the mailbox of the slave
takes a copy, and clears the cache; the slave may handle the copy at any time from then on.
`FreeFd` has no other caller in the program, while a slave makes the other calls of its manager
at any time. Addresses of deleted vectors are used again.
-/

namespace Magneto

inductive ReqProcedure.Phase
  | pooled
  | handling
  | sending
  | sent
  | cleared
  deriving DecidableEq

structure ReqProcedure where
  phase : ReqProcedure.Phase
  client : ClientReq
  serviceCache : ServiceCache
  tmpMsgDestruct : MsgDestruct

inductive ReqProcedure.Action
  | getFd (service : Service)
  | insertFd (service : Service) (fd : ℤ) (remote : RemoteRef) (peer : Option Remote)
  | invalidFd (service : Service)
  | fdClientInvalid

namespace ReqProcedure

def act (b : ReqProcedure) : Action → ReqProcedure
  | .getFd service => { b with serviceCache := (b.serviceCache.getFd service).2.2 }
  | .insertFd service fd remote peer =>
    { b with serviceCache := b.serviceCache.insertFd ⟨service.no, fd, some remote, peer⟩ }
  | .invalidFd service => { b with serviceCache := b.serviceCache.invalidFd service.no }
  | .fdClientInvalid => { b with client := { b.client with fdClient := -1 } }

def Remotes (cache : ServiceCache) : Prop := ∀ e ∈ cache, e.remote.isSome = true

theorem phase_act (b : ReqProcedure) (x : Action) : (b.act x).phase = b.phase := by
  cases x <;> rfl

theorem Remotes.act {b : ReqProcedure} (h : Remotes b.serviceCache) (x : Action) :
    Remotes (b.act x).serviceCache := by
  cases x with
  | getFd service =>
    simp only [ReqProcedure.act, ServiceCache.getFd]
    split
    · exact fun e he => h e (List.mem_of_mem_eraseP he)
    · exact h
  | insertFd service fd remote peer =>
    simp only [ReqProcedure.act, ServiceCache.insertFd]
    split_ifs
    · exact h
    · rintro e (_ | ⟨_, he⟩)
      · rfl
      · exact h e he
  | invalidFd service => exact fun e he => h e (List.mem_of_mem_eraseP he)
  | fdClientInvalid => exact h

end ReqProcedure

/-- `fault` tells that the program read, deleted or divided by what it may not. -/
structure HandOver where
  procedures : ℕ → ReqProcedure
  slaves : ℕ → SlaveConns
  heap : BigCaches
  fault : Bool

namespace HandOver

def init (clients : ℕ → ClientReq) (msgs : ℕ → MsgDestruct) (mgrs : ℕ → ConnsMgr) : HandOver where
  procedures p := ⟨.pooled, clients p, [], msgs p⟩
  slaves i := .init (mgrs i)
  heap := .empty
  fault := false

def setProcedure (s : HandOver) (p : ℕ) (b : ReqProcedure) : HandOver :=
  { s with procedures := Function.update s.procedures p b }

def setSlave (s : HandOver) (i : ℕ) (a : SlaveConns) : HandOver :=
  { s with slaves := Function.update s.slaves i a }

inductive Label
  | start (p : ℕ) (client : ClientReq)
  | act (p : ℕ) (x : ReqProcedure.Action)
  | build (p : ℕ) (order : ServiceCache) (addr : ℕ)
  | send (p : ℕ) (accepted : Bool)
  | clear (p : ℕ)
  | recycle (p : ℕ)
  | call (i : ℕ) (c : ConnsMgr.Call)
  | receive (i : ℕ) (passes : ℕ → FreePass)

/-- `Agents::SendMsg`; a procedure is done with sending when the mailbox takes the message. -/
def send (numAgents : ℕ) (s : HandOver) (p : ℕ) (accepted : Bool) : HandOver :=
  let b := s.procedures p
  if numAgents = 0 then { s with fault := true }
  else if accepted then
    let i := b.client.idProcedure % numAgents
    let a := s.slaves i
    (s.setProcedure p { b with phase := .sent }).setSlave i { a with
      mailbox := a.mailbox ++ [b.tmpMsgDestruct]
      handed := a.handed ++ [b.serviceCache] }
  else s

def receive (s : HandOver) (i : ℕ) (passes : ℕ → FreePass) : HandOver :=
  let a := s.slaves i
  match a.mailbox with
  | m :: mails =>
    ({ a with mailbox := mails }.handleMsgDestruct passes m s.heap).elim { s with fault := true }
      fun r => { s.setSlave i r.1 with heap := r.2 }
  | [] => s

def next (numAgents : ℕ) (s : HandOver) : Label → HandOver
  | .start p client => s.setProcedure p { s.procedures p with phase := .handling, client := client }
  | .act p x => s.setProcedure p ((s.procedures p).act x)
  | .build p order addr =>
    let b := s.procedures p
    let r := b.tmpMsgDestruct.buildForDestruct b.client order addr s.heap
    { s.setProcedure p { b with phase := .sending, tmpMsgDestruct := r.1 } with heap := r.2 }
  | .send p accepted => s.send numAgents p accepted
  | .clear p => s.setProcedure p { s.procedures p with phase := .cleared, serviceCache := [] }
  | .recycle p => s.setProcedure p { s.procedures p with phase := .pooled }
  | .call i c => ((s.slaves i).call c).elim s (s.setSlave i)
  | .receive i passes => s.receive i passes

def Enabled (s : HandOver) : Label → Prop
  | .start p _ => (s.procedures p).phase = .pooled
  | .act p _ => (s.procedures p).phase = .handling
  | .build p order addr => (s.procedures p).phase = .handling ∧
      order.Perm (s.procedures p).serviceCache ∧ s.heap.vectors addr = none
  | .send p _ => (s.procedures p).phase = .sending
  | .clear p => (s.procedures p).phase = .sent
  | .recycle p => (s.procedures p).phase = .cleared
  | .call i c => c.freed = none ∧ ((s.slaves i).mgr.call c).isSome = true
  | .receive i _ => (s.slaves i).mailbox ≠ []

instance (s : HandOver) : ∀ l : Label, Decidable (s.Enabled l)
  | .start p _ => inferInstanceAs (Decidable ((s.procedures p).phase = .pooled))
  | .act p _ => inferInstanceAs (Decidable ((s.procedures p).phase = .handling))
  | .build p order addr => inferInstanceAs (Decidable ((s.procedures p).phase = .handling ∧
      order.Perm (s.procedures p).serviceCache ∧ s.heap.vectors addr = none))
  | .send p _ => inferInstanceAs (Decidable ((s.procedures p).phase = .sending))
  | .clear p => inferInstanceAs (Decidable ((s.procedures p).phase = .sent))
  | .recycle p => inferInstanceAs (Decidable ((s.procedures p).phase = .cleared))
  | .call i c => inferInstanceAs
      (Decidable (c.freed = none ∧ ((s.slaves i).mgr.call c).isSome = true))
  | .receive i _ => inferInstanceAs (Decidable ((s.slaves i).mailbox ≠ []))

def machine (numAgents : ℕ) : Machine HandOver Label where
  enabled := Enabled
  next := next numAgents

instance (numAgents : ℕ) (s : HandOver) (l : Label) :
    Decidable ((machine numAgents).enabled s l) := inferInstanceAs (Decidable (s.Enabled l))

/-- `FreeFd` was called for the connections of the caches handed over so far, once for each and
for nothing else, except for those of the last caches, which the mails carry in their order. -/
def Lossless (heap : BigCaches) (a : SlaveConns) : Prop :=
  ∃ done pending, a.handed = done ++ pending ∧
    a.freed.Perm (done.flatMap ServiceCache.pairs) ∧
    List.Forall₂ (MsgDestruct.Carries heap) a.mailbox pending

inductive Holder
  | procedure (p : ℕ)
  | slave (i : ℕ)
  deriving DecidableEq

def held (s : HandOver) : Holder → List ℕ
  | .procedure p =>
    if (s.procedures p).phase = .sending then (s.procedures p).tmpMsgDestruct.bigCache.toList
    else []
  | .slave i => (s.slaves i).mailbox.filterMap MsgDestruct.bigCache

def book (s : HandOver) : Ledger Holder ℕ := ⟨s.held, s.heap.news, s.heap.deletes⟩

structure ProcedureOk (heap : BigCaches) (b : ReqProcedure) : Prop where
  remotes : ReqProcedure.Remotes b.serviceCache
  emptied : b.phase = .pooled ∨ b.phase = .cleared → b.serviceCache = []
  sending : b.phase = .sending → b.tmpMsgDestruct.Carries heap b.serviceCache

structure SlaveOk (heap : BigCaches) (mgr₀ : ConnsMgr) (a : SlaveConns) : Prop where
  traced : a.Traced mgr₀
  lossless : Lossless heap a
  handed : ∀ cache ∈ a.handed, ReqProcedure.Remotes cache

structure Inv (mgrs : ℕ → ConnsMgr) (s : HandOver) : Prop where
  safe : s.fault = false
  procedures : ∀ p, ProcedureOk s.heap (s.procedures p)
  slaves : ∀ i, SlaveOk s.heap (mgrs i) (s.slaves i)
  heap : s.heap.Ok
  sound : s.book.Sound none

variable {mgrs : ℕ → ConnsMgr} {s : HandOver} {p i : ℕ} {b : ReqProcedure} {a : SlaveConns}

theorem inv_init (clients : ℕ → ClientReq) (msgs : ℕ → MsgDestruct) (mgrs : ℕ → ConnsMgr) :
    Inv mgrs (init clients msgs mgrs) where
  safe := rfl
  procedures _ := ⟨fun _ he => absurd he List.not_mem_nil, fun _ => rfl, fun h => by cases h⟩
  slaves _ := ⟨⟨rfl, rfl⟩, ⟨[], [], rfl, .nil, .nil⟩, fun _ h => absurd h List.not_mem_nil⟩
  heap := .empty
  sound := by
    refine .initial (fun h => ?_) (fun _ => rfl) rfl
    cases h <;> rfl

theorem procedures_setProcedure (s : HandOver) (p : ℕ) (b : ReqProcedure) (q : ℕ) :
    (s.setProcedure p b).procedures q = if q = p then b else s.procedures q :=
  Function.update_apply _ _ _ _

theorem slaves_setSlave (s : HandOver) (i : ℕ) (a : SlaveConns) (j : ℕ) :
    (s.setSlave i a).slaves j = if j = i then a else s.slaves j :=
  Function.update_apply _ _ _ _

theorem forall_setProcedure {C : ReqProcedure → Prop} (h : ∀ q, q ≠ p → C (s.procedures q))
    (hb : C b) (q : ℕ) : C ((s.setProcedure p b).procedures q) := by
  rw [procedures_setProcedure]
  split_ifs with hq
  · exact hb
  · exact h q hq

theorem forall_setSlave {C : ℕ → SlaveConns → Prop} (h : ∀ j, j ≠ i → C j (s.slaves j))
    (ha : C i a) (j : ℕ) : C j ((s.setSlave i a).slaves j) := by
  rw [slaves_setSlave]
  split_ifs with hj
  · rw [hj]
    exact ha
  · exact h j hj

end HandOver

end Magneto
