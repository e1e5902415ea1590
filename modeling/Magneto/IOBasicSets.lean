import Magneto.Lib.Vec
import Magneto.IOBasicFiling

/-!
# The results of a set operation

When its session is handed back, an operation on a set of services stores the error, or the
error and the reader, of each talk in a vector of its caller. `Read` and `Talks` resize the
vector first. `Write` only reserves room in it, so its results are there exactly when the
caller gave it a vector of the size of the set.
-/

namespace Magneto

variable {P : Protocols}

abbrev Response (P : Protocols) := ErrorNo × Option (ReaderObj P)

def Talk.response (t : Talk P) : Response P := (t.error, t.protocolRead)

structure SetOutput (P : Protocols) where
  errors : Vec ErrorNo
  responses : Vec (Response P)

namespace SetOutput

def ofCaller (errors : List ErrorNo) (responses : List (Response P)) : SetOutput P :=
  ⟨.ofList errors, .ofList responses⟩

/-- What set `Write`, set `Read` and `Talks` do with the vectors when they are resumed. -/
def store (out : SetOutput P) (op : Op P) (talks : List (Talk P)) : SetOutput P :=
  match op with
  | .writes reqs =>
    { out with errors := (out.errors.reserve reqs.length).store 0 (talks.map Talk.error) }
  | .reads services =>
    { out with responses :=
        (out.responses.resize services.length (.kOk, none)).store 0 (talks.map Talk.response) }
  | .talks reqs =>
    { out with responses :=
        (out.responses.resize reqs.length (.kOk, none)).store 0 (talks.map Talk.response) }
  | _ => out

end SetOutput

/-- A vector has an element for each service, which is `f` of the talk with that service, and
was not written outside its size. -/
def Aligned {β : Type} (f : Talk P → β) (services : List Service) (talks : List (Talk P))
    (v : Vec β) : Prop :=
  v.size = services.length ∧ v.outside = [] ∧
    ∀ (i : ℕ) (service : Service), services[i]? = some service →
      ∃ t, talks[i]? = some t ∧ t.service = some service ∧ v.elems[i]? = some (f t)

def SetOutput.LinesUp (out : SetOutput P) (op : Op P) (talks : List (Talk P)) : Prop :=
  match op with
  | .writes _ => Aligned Talk.error op.services talks out.errors
  | _ => Aligned Talk.response op.services talks out.responses

section aligned

variable {β : Type} {f : Talk P → β} {services : List Service} {talks : List (Talk P)}

theorem aligned_ofList (h : talks.map Talk.service = services.map some) :
    Aligned f services talks (.ofList (talks.map f)) := by
  have hlen := congrArg List.length h
  rw [List.length_map, List.length_map] at hlen
  refine ⟨(List.length_map f).trans hlen, rfl, fun i service hi => ?_⟩
  have hget : (talks[i]?).map Talk.service = some (some service) := by
    rw [← List.getElem?_map, h, List.getElem?_map, hi]
    rfl
  obtain ⟨t, ht, hservice⟩ := Option.map_eq_some_iff.mp hget
  exact ⟨t, ht, hservice, by simp [Vec.ofList, ht]⟩

theorem aligned_store_iff (h : talks.map Talk.service = services.map some) (xs : List β) :
    Aligned f services talks ((Vec.ofList xs).store 0 (talks.map f)) ↔
      xs.length = services.length := by
  have hlen := congrArg List.length h
  rw [List.length_map, List.length_map] at hlen
  constructor
  · intro hup
    exact ((Vec.ofList xs).size_store 0 _).symm.trans hup.1
  · intro hsize
    rw [(Vec.store_ofList_iff _ _).mpr (by rw [hsize, List.length_map, hlen])]
    exact aligned_ofList h

theorem aligned_resize (h : talks.map Talk.service = services.map some) (xs : List β) (x : β)
    {n : ℕ} (hn : services.length = n) :
    Aligned f services talks (((Vec.ofList xs).resize n x).store 0 (talks.map f)) :=
  (aligned_store_iff h _).mpr (((Vec.ofList xs).size_resize n x).trans hn.symm)

end aligned

namespace BizProcedure

/-- The results of a set operation that is resumed line up with its services exactly when it
is no `Write`, or the caller gave it a vector of errors of the size of the set. -/
theorem setOutput_linesUp_iff (conf : ConfNormal) (pools : PoolProtocols P) (fdClient : ℤ)
    (protocolRead : Protocol.Category) (before : List (Label P)) (op : Op P) (hop : op.IsSet)
    (timeoMs now : ℤ) (ctxs : EventCtxPool) (ls : List AgentSlave.Label)
    (hrun : (machine P conf).Admits (init pools fdClient protocolRead)
      (before ++ .call op timeoMs now true ctxs :: (ls.map .agent ++ [.resume])))
    (errors : List ErrorNo) (responses : List (Response P)) :
    let b := (machine P conf).exec (init pools fdClient protocolRead)
      (before ++ .call op timeoMs now true ctxs :: (ls.map .agent ++ [.resume]))
    ∃ s, b.returns.getLast?.bind OpReturn.session = some s ∧
      (((SetOutput.ofCaller errors responses).store op s.talks).LinesUp op s.talks ↔
        ∀ reqs, op = .writes reqs → errors.length = reqs.length) := by
  intro b
  have hback : ∀ buf, op ≠ .writeBack buf := by
    rintro buf rfl
    exact hop
  obtain ⟨hbefore, hcall⟩ := (machine P conf).admits_append.mp hrun
  have hc := exec_cacheOk pools fdClient protocolRead hbefore
  obtain ⟨s, hret⟩ := call_returned hc.sound hcall
  have hservice := hret.service_eq (buildTalks_all hc.sound op timeoMs now).built hback
  refine ⟨s, ?_, ?_⟩
  · show ((machine P conf).exec _ _).returns.getLast?.bind _ = _
    rw [Machine.exec_append]
    exact hret.returns
  cases op with
  | writes reqs =>
    have hlen : (Op.services (.writes reqs)).length = reqs.length := List.length_map _
    refine (aligned_store_iff hservice errors).trans ?_
    rw [hlen]
    exact ⟨fun h reqs' heq => (by cases heq; exact h), fun h => h reqs rfl⟩
  | reads services =>
    have hlen : (Op.services (.reads services : Op P)).length = services.length := by
      simp [Op.services, Op.reqs]
    refine ⟨fun _ reqs heq => (by cases heq), fun _ => ?_⟩
    exact aligned_resize hservice responses (.kOk, none) hlen
  | talks reqs =>
    have hlen : (Op.services (.talks reqs)).length = reqs.length := List.length_map _
    refine ⟨fun _ reqs heq => (by cases heq), fun _ => ?_⟩
    exact aligned_resize hservice responses (.kOk, none) hlen
  | write _ _ => exact absurd hop id
  | read _ => exact absurd hop id
  | simpleTalk _ _ => exact absurd hop id
  | writeBack buf => exact absurd hop id

/-- One request is written to a service; the caller gave a vector for one error. -/
theorem setOutput_linesUp_iff_oneError :
    let b := (machine Rapid.protocols ⟨50, 50, 50⟩).exec Rapid.oneClient
      (writesRun [Rapid.oneService 0] [5])
    let op := .writes [(Rapid.oneService 0, some Rapid.oneRequest)]
    ∃ s, b.returns.getLast?.bind OpReturn.session = some s ∧
      ((SetOutput.ofCaller [.kOther] []).store op s.talks).LinesUp op s.talks := by
  intro b op
  have hrun : (machine Rapid.protocols ⟨50, 50, 50⟩).Admits Rapid.oneClient
      (writesRun [Rapid.oneService 0] [5]) := by decide
  obtain ⟨s, hs, hiff⟩ := setOutput_linesUp_iff ⟨50, 50, 50⟩ Rapid.emptyPools 4 .kRapid [] op
    trivial 100 0 .empty _ hrun [.kOther] []
  refine ⟨s, hs, hiff.mpr fun reqs heq => ?_⟩
  obtain rfl : [(Rapid.oneService 0, some Rapid.oneRequest)] = reqs := Op.writes.inj heq
  rfl

theorem emptyErrors_stay : ¬ ∀ (P : Protocols) (conf : ConfNormal) (pools : PoolProtocols P)
      (fdClient : ℤ) (protocolRead : Protocol.Category) (before : List (Label P)) (op : Op P),
    op.IsSet → ∀ (timeoMs now : ℤ) (ctxs : EventCtxPool) (ls : List AgentSlave.Label),
    (machine P conf).Admits (init pools fdClient protocolRead)
      (before ++ .call op timeoMs now true ctxs :: (ls.map .agent ++ [.resume])) →
    ∀ (errors : List ErrorNo) (responses : List (Response P)),
    let b := (machine P conf).exec (init pools fdClient protocolRead)
      (before ++ .call op timeoMs now true ctxs :: (ls.map .agent ++ [.resume]))
    ∃ s, b.returns.getLast?.bind OpReturn.session = some s ∧
      ((SetOutput.ofCaller errors responses).store op s.talks).LinesUp op s.talks := by
  intro h
  obtain ⟨s, -, hup⟩ := h Rapid.protocols ⟨50, 50, 50⟩ Rapid.emptyPools 4 .kRapid []
    (.writes [(Rapid.oneService 0, some Rapid.oneRequest)]) trivial 100 0 .empty _
    (show (machine Rapid.protocols ⟨50, 50, 50⟩).Admits Rapid.oneClient
      (writesRun [Rapid.oneService 0] [5]) by decide) [] []
  have hsize : ((Vec.ofList []).store 0 (s.talks.map Talk.error)).size = 1 := hup.1
  rw [Vec.size_store] at hsize
  exact absurd hsize (by decide)

end BizProcedure

end Magneto
