import Magneto.IOBasicRun
import Magneto.Redis
import Magneto.SessionOutcome
import Magneto.SessionProgress

/-!
# What an operation returns, files and waits for

The results about whole runs of a biz procedure: an operation returns `kOk` only
when all its talks were driven to their end, only connections with nothing
outstanding are filed in the service cache, and an operation waits for talks
that have an event with a timer, as long as it does not write back to a client
whose connection is lost.
-/

namespace Magneto

namespace Rapid

def oneClient : BizProcedure protocols := .init emptyPools 4 .kRapid

def simpleTalkRun : List (BizProcedure.Label protocols) :=
  .call (.simpleTalk (oneService 0) oneRequest) 100 0 true .empty ::
    AgentSlave.oneTalkRun.map .agent ++ [.resume]

end Rapid

namespace Redis

def emptyPools : PoolProtocols protocols := ⟨.empty, .empty⟩

def cacheService : Service := ⟨0, "cache", .kRedis, .kNormal, [Rapid.oneRemote], 1, 0⟩

def storeService : Service := ⟨1, "store", .kRedis, .kNormal, [Rapid.oneRemote], 1, 1⟩

def command (cmd : String) : Slice := ⟨RedisParser.ascii cmd, [0]⟩

/-- A buffer that does not encode leaves its writer in the pool twice, and both talks of a set
take it: the first talk writes the second one's request. -/
def sharedWriterRun : List (BizProcedure.Label protocols) :=
  [.call (.write cacheService (command "")) 100 0 true .empty, .freeTalks,
    .call (.writes [(cacheService, some (command "get")), (storeService, some (command "ping"))])
      100 0 true .empty] ++
  [AgentSlave.Label.reset (Rapid.connected 5 []), .reset (Rapid.connected 6 []),
    .ready 5 .kOut (Rapid.connected 5 []), .ready 6 .kOut (Rapid.connected 7 []),
    .ready 7 .kOut (Rapid.connected 7 [])].map .agent ++ [.resume]

end Redis

namespace BizProcedure

variable {P : Protocols}

/-- The talks of a call have no writer in common, unless a talk that did not encode gave it
back. -/
def CallsApart (b : BizProcedure P) : Label P → Prop
  | .call op timeoMs now _ _ => Talk.Apart (b.buildTalks op timeoMs now).1
  | .agent _ => True
  | .resume => True
  | .freeTalks => True

instance (b : BizProcedure P) : ∀ l, Decidable (CallsApart b l)
  | .call _ _ _ _ _ => inferInstanceAs (Decidable (Talk.Apart _))
  | .agent _ => inferInstanceAs (Decidable True)
  | .resume => inferInstanceAs (Decidable True)
  | .freeTalks => inferInstanceAs (Decidable True)

def callsApart (P : Protocols) (conf : ConfNormal) : Machine (BizProcedure P) (Label P) :=
  (machine P conf).guarded CallsApart

instance (conf : ConfNormal) (b : BizProcedure P) (l : Label P) :
    Decidable ((callsApart P conf).enabled b l) :=
  inferInstanceAs (Decidable (Enabled b l ∧ CallsApart b l))

open AgentSlave (unshared)

theorem tolerated_unshared (conf : ConfNormal) {b : BizProcedure P} {l : Label P}
    (h : CallsApart b l) : Tolerated unshared conf b l := by
  cases l with
  | call op timeoMs now accepted ctxs => exact ⟨.inl trivial, .inr h, .inl trivial⟩
  | agent l =>
    intro p hp
    cases l with
    | cleanTimeout env => exact ⟨.inl trivial, .inl trivial⟩
    | removeTimeouts fds => trivial
    | reset env => exact .inl trivial
    | ready fd event env => exact .inl trivial
  | resume => trivial
  | freeTalks => trivial

def Complete (s : Session P) : Prop :=
  (∃ t ∈ s.talks, t.buf.isSome) ∧ ∀ t ∈ s.talks, t.buf.isSome →
    (t.category ≠ .kReadOnly → t.WroteRequest) ∧
    (t.category ≠ .kWriteOnly → t.attempt.decoded = true)

def Idle (t : Talk P) : Prop := t.attempt.touched = false ∨ t.Completed

/-- Every call of `WriteBack` finds an open client connection or a buffer that does not
encode, and the time limits of the remotes fit an `int`. -/
def ClientOpen (b : BizProcedure P) : Label P → Prop
  | .call op timeoMs now _ _ =>
    (∀ e ∈ b.serviceCache, ∀ r, e.remote = some r → r.TimeoOk) ∧
    ∀ buf, op = .writeBack buf →
      0 < b.fdClient ∨ headError (b.buildTalks op timeoMs now).1 ≠ .kOk
  | .agent l => ∀ env ∈ l.env, env.TimeoOk
  | .resume => True
  | .freeTalks => True

def clientOpen (P : Protocols) (conf : ConfNormal) : Machine (BizProcedure P) (Label P) :=
  (machine P conf).guarded ClientOpen

open AgentSlave (driven OneEvent)

theorem tolerated_driven {conf : ConfNormal} (hconf : conf.TimeoOk) {b : BizProcedure P}
    {l : Label P} (h : ClientOpen b l) : Tolerated driven conf b l := by
  cases l with
  | call op timeoMs now accepted ctxs => exact ⟨.inr h.1, .inl trivial, .inr h.2⟩
  | agent l =>
    intro p hp
    cases l with
    | reset env => exact .inr ⟨hconf, h env rfl⟩
    | ready fd event env => exact .inr ⟨hconf, h env rfl⟩
    | removeTimeouts fds => trivial
    | cleanTimeout env => exact ⟨.inr ⟨hconf, h env rfl⟩, .inl trivial⟩
  | resume => trivial
  | freeTalks => trivial

theorem inv_exec_clientOpen {conf : ConfNormal} (hconf : conf.TimeoOk) (pools : PoolProtocols P)
    (fdClient : ℤ) (protocolRead : Protocol.Category) {ls : List (Label P)}
    (hrun : (clientOpen P conf).Admits (init pools fdClient protocolRead) ls) :
    ((machine P conf).exec (init pools fdClient protocolRead) ls).Inv driven :=
  (clientOpen P conf).invariant (I := Inv driven)
    (fun _ _ h hl => inv_next h hl.1 (tolerated_driven hconf hl.2))
    (inv_init pools fdClient protocolRead) hrun

theorem admits_agent {conf : ConfNormal} {b : BizProcedure P} {p : Suspended P}
    (hp : b.waiting = some p) {ls : List AgentSlave.Label}
    (hno : ∀ l ∈ ls, ∀ env ∈ l.env, ¬ 0 < env.getFd.fd)
    (hrun : (AgentSlave.machine P conf).Admits p.agent ls) :
    (machine P conf).Admits b (ls.map .agent) ∧
      ∃ q, ((machine P conf).exec b (ls.map .agent)).waiting = some q ∧
        q.agent = (AgentSlave.machine P conf).exec p.agent ls := by
  induction ls generalizing b p with
  | nil => exact ⟨trivial, p, hp, rfl⟩
  | cons l ls ih =>
    obtain ⟨hl, hrest⟩ := hrun
    obtain ⟨hno₀, hno⟩ := List.forall_mem_cons.mp hno
    have hnext : (next conf b (.agent l)).waiting = some ⟨p.op, AgentSlave.next conf p.agent l,
        p.everFailed || (AgentSlave.next conf p.agent l).session.hasFailure⟩ := by
      simp only [next, agentStep, hp]
    obtain ⟨hadm, q, hq, he⟩ := ih hnext hno hrest
    refine ⟨⟨?_, hadm⟩, q, hq, he⟩
    show AgentEnabled b.serviceCache l b.waiting
    rw [hp]
    exact ⟨hl, fun env henv hpos => absurd hpos (hno₀ env henv)⟩

/-- While the reply to an operation is outstanding, each of its talks that is not counted has
exactly one event, with a timer, unless the running loop of `Session::Reset` or of
`CleanTimeouts_` still comes to it; and timers alone can bring the reply. -/
theorem not_orphaned (conf : ConfNormal) (hconf : conf.TimeoOk) (pools : PoolProtocols P)
    (fdClient : ℤ) (protocolRead : Protocol.Category) (ls : List (Label P))
    (hrun : (clientOpen P conf).Admits (init pools fdClient protocolRead) ls) :
    let b := (machine P conf).exec (init pools fdClient protocolRead) ls
    ∀ p, b.waiting = some p → p.agent.sentBack = [] →
      (∀ t ∈ p.agent.session.talks, t.counted = false →
        p.agent.pc.place t.noTalk ≠ .started ∨ OneEvent p.agent.session.driver t) ∧
      ∃ ls' : List AgentSlave.Label, (machine P conf).Admits b (ls'.map .agent) ∧
        Replied ((machine P conf).exec b (ls'.map .agent)).waiting := by
  intro b p hp hs
  have h := inv_exec_clientOpen hconf pools fdClient protocolRead hrun
  obtain ⟨talks, -, hinv, -⟩ := (h.waiting p hp).agent
  refine ⟨fun t ht hc => ?_, ?_⟩
  · by_cases hplace : p.agent.pc.place t.noTalk = .started
    · exact .inr (AgentSlave.oneEvent_of_started hinv.session ht hc hplace)
    · exact .inl hplace
  · obtain ⟨ls', hno, hadm, hsent⟩ := AgentSlave.canFinish hconf hinv
    obtain ⟨hadm', q, hq, he⟩ := admits_agent hp hno hadm
    refine ⟨ls', hadm', ?_⟩
    rw [hq]
    show q.agent.sentBack.isEmpty = false
    rw [he]
    simpa using hsent

def writingBack : List (Label Rapid.protocols) :=
  [.call (.writeBack Rapid.oneRequest) 100 0 true .empty, .agent (.reset (Rapid.connected 5 []))]

theorem not_orphaned_writingBack :
    let b := (machine Rapid.protocols ⟨50, 50, 50⟩).exec Rapid.oneClient writingBack
    ∃ p, b.waiting = some p ∧ ∃ t ∈ p.agent.session.talks, OneEvent p.agent.session.driver t := by
  have hrun : (clientOpen Rapid.protocols ⟨50, 50, 50⟩).Admits Rapid.oneClient writingBack := by
    refine ⟨⟨by decide, by simp [Rapid.oneClient, init], fun _ _ => .inl (by decide)⟩,
      ⟨by decide, ?_⟩, trivial⟩
    intro env henv
    obtain rfl : Rapid.connected 5 [] = env := by simpa [AgentSlave.Label.env] using henv
    exact ⟨by decide, by decide, by decide⟩
  have h := not_orphaned ⟨50, 50, 50⟩ ⟨by decide, by decide, by decide⟩ Rapid.emptyPools 4 .kRapid
    writingBack hrun
  obtain ⟨hall, -⟩ := h _ rfl rfl
  refine ⟨_, rfl, _, List.mem_cons_self, ?_⟩
  exact (hall _ List.mem_cons_self rfl).resolve_left (by decide)

/-- The client connection breaks while a request is written back; the next request is
written back all the same. -/
def lostClientRun : List (Label Rapid.protocols) :=
  writingBack ++ [.agent (.ready 4 .kErr (Rapid.connected 5 [])), .resume] ++ writingBack

theorem lostClient_orphaned :
    ¬ ∀ (P : Protocols) (conf : ConfNormal), conf.TimeoOk → ∀ (pools : PoolProtocols P)
      (fdClient : ℤ) (protocolRead : Protocol.Category) (ls : List (Label P)),
      (machine P conf).Admits (init pools fdClient protocolRead) ls →
      let b := (machine P conf).exec (init pools fdClient protocolRead) ls
      ∀ p, b.waiting = some p → p.agent.sentBack = [] →
        ∀ t ∈ p.agent.session.talks, t.counted = false →
          p.agent.pc.place t.noTalk ≠ .started ∨ OneEvent p.agent.session.driver t := by
  intro h
  have h := h Rapid.protocols ⟨50, 50, 50⟩ ⟨by decide, by decide, by decide⟩ Rapid.emptyPools 4
    .kRapid lostClientRun (by decide) _ rfl rfl _ List.mem_cons_self rfl
  obtain ⟨fd, slot, hd, -⟩ := h.resolve_left (by decide)
  exact nomatch (show none = some slot from hd)

end BizProcedure

end Magneto
