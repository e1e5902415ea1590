import Magneto.IOBasicOutcome

/-!
# Who holds the protocol objects

A talk that `Talk::Assign` has filled holds the objects its pointers name, and
the slave's work on the talk keeps these pointers. A procedure holds what the
talks since the last `FreeTalks` hold. The ledgers of the pools agree with this
as long as every buffer encodes: `Talk::Assign` gives the writer of a failed
encoding back and keeps the pointer, and `FreeTalks` gives it back once more.
-/

namespace Magneto

variable {P : Protocols}

namespace Talk

def writeIds (talks : List (Talk P)) : List ℕ := talks.filterMap writeId

def readIds (talks : List (Talk P)) : List ℕ := talks.filterMap readId

@[simp] theorem writeIds_append (ts us : List (Talk P)) :
    writeIds (ts ++ us) = writeIds ts ++ writeIds us := List.filterMap_append

@[simp] theorem readIds_append (ts us : List (Talk P)) :
    readIds (ts ++ us) = readIds ts ++ readIds us := List.filterMap_append

theorem writeIds_map_follow (u : Talk P) (talks : List (Talk P)) :
    writeIds (talks.map u.follow) = writeIds talks := by
  rw [writeIds, List.filterMap_map]
  exact List.filterMap_congr fun t _ => follow_writeId u t

theorem readIds_map_follow (u : Talk P) (talks : List (Talk P)) :
    readIds (talks.map u.follow) = readIds talks := by
  rw [readIds, List.filterMap_map]
  rfl

theorem ids_map_followAll (us talks : List (Talk P)) :
    writeIds (talks.map (followAll us)) = writeIds talks ∧
      readIds (talks.map (followAll us)) = readIds talks := by
  induction us generalizing talks with
  | nil =>
    rw [show talks.map (followAll []) = talks from List.map_id talks]
    exact ⟨rfl, rfl⟩
  | cons u us ih =>
    have hmap : talks.map (followAll (u :: us)) = (talks.map u.follow).map (followAll us) := by
      rw [List.map_map]
      rfl
    rw [hmap]
    exact ⟨(ih _).1.trans (writeIds_map_follow u talks),
      (ih _).2.trans (readIds_map_follow u talks)⟩

end Talk

namespace AgentSlave

open Talk (writeIds readIds)

theorem next_ids {A : Tolerance} {talks : List (Talk P)} {conf : ConfNormal} {a : AgentSlave P}
    {l : Label} (h : a.Inv A talks) (hl : Enabled a l) (ht : Tolerated A conf a l) :
    writeIds (next conf a l).session.talks = writeIds a.session.talks ∧
      readIds (next conf a l).session.talks = readIds a.session.talks := by
  have key : ∀ {n : ℕ} {t u : Talk P} {s' : Session P} {env : Env},
      a.session.talks[n]? = some t →
      Session.Worked A env (unregister a.session t.fd) t s' u →
      writeIds (s'.setTalk u).talks = writeIds a.session.talks ∧
        readIds (s'.setTalk u).talks = readIds a.session.talks := by
    intro n t u s' env hget hw
    have htalks : (s'.setTalk u).talks = (a.session.talks.map u.follow).set n u := by
      rw [Session.setTalk, hw.noTalk.trans (h.session.index n t hget), hw.talks]
      rfl
    obtain ⟨hwid, hrid⟩ := hw.moves.ids_eq
    have hget' : (a.session.talks.map u.follow)[n]? = some (u.follow t) := by
      rw [List.getElem?_map, hget]
      rfl
    rw [htalks, ← Talk.writeIds_map_follow u a.session.talks,
      ← Talk.readIds_map_follow u a.session.talks]
    exact ⟨List.filterMap_set_of_eq hget' (hwid.trans (Talk.follow_writeId u t).symm),
      List.filterMap_set_of_eq hget' hrid⟩
  have hstep := step_cases h hl ht
  generalize next conf a l = a' at hstep ⊢
  cases hstep with
  | reset hpc hget hc hfresh hw => simpa using key hget hw
  | ready hpc hget hc hbuf hfresh hw => simpa using key hget hw
  | cleanTimeout hpc hget hc hfresh hw => simpa using key hget hw
  | removeTimeouts fds => exact ⟨rfl, rfl⟩

end AgentSlave

namespace PoolProtocols

structure Owned (pools : PoolProtocols P) (writers readers : List ℕ) : Prop where
  write : pools.write.Owned writers
  read : pools.read.Owned readers

theorem followWrite_of_owned {pools : PoolProtocols P} {held : List ℕ} (h : pools.write.Owned held)
    {w : WriterObj P} (hw : w.id ∈ held) : pools.followWrite w = pools := by
  rw [followWrite, ObjectPool.follow_of_not_mem (h.not_mem_free hw)]

def Encodes (pools : PoolProtocols P) (c : Protocol.Category) (buf : P.Buf) : Prop :=
  (P.encode (P.resetWriter (P.newWriter c) buf)).1 = true ∧
    ∀ o ∈ pools.write.free, o.key = c → (P.encode (P.resetWriter o.val buf)).1 = true

instance (pools : PoolProtocols P) (c : Protocol.Category) (buf : P.Buf) :
    Decidable (pools.Encodes c buf) :=
  inferInstanceAs (Decidable (_ ∧ ∀ o ∈ pools.write.free, _ → _))

theorem Encodes.mono {pools pools' : PoolProtocols P} {c : Protocol.Category} {buf : P.Buf}
    (h : pools.Encodes c buf) (hsub : pools'.write.free ⊆ pools.write.free) :
    pools'.Encodes c buf := ⟨h.1, fun o ho => h.2 o (hsub ho)⟩

theorem Encodes.encodeWriter {pools : PoolProtocols P} {c : Protocol.Category} {buf : P.Buf}
    (h : pools.Encodes c buf) : (Talk.encodeWriter (pools.getWrite c).1 buf).1 = true := by
  rcases pools.write.get_mem c (P.newWriter c) with hv | hm
  · have hnew := h.1
    rw [← hv] at hnew
    exact hnew
  · exact h.2 _ hm (pools.write.get_key c _)

end PoolProtocols

namespace Talk

variable {pools : PoolProtocols P} {writers readers : List ℕ}

theorem assign_owned (h : pools.Owned writers readers) (now : ℤ) (a : Args P)
    (henc : ∀ buf, a.buf = some buf → a.category ≠ .kReadOnly →
      pools.Encodes a.protocolCategory buf) :
    (assign pools now a).2.Owned (writeIds [(assign pools now a).1] ++ writers)
        (readIds [(assign pools now a).1] ++ readers) ∧
      (assign pools now a).2.write.free ⊆ pools.write.free := by
  have hget := h.write.get a.protocolCategory (P.newWriter a.protocolCategory)
  have hsub := pools.write.get_free_subset a.protocolCategory (P.newWriter a.protocolCategory)
  have hread := h.read.get a.protocolCategory (P.newReader a.protocolCategory)
  have hcase := assign_cases pools now a
  generalize assign pools now a = r at hcase ⊢
  cases hcase with
  | skipped hb => exact ⟨h, List.Subset.refl _⟩
  | unencoded buf w hb hc he =>
    have := (henc buf hb hc).encodeWriter
    simp [he] at this
  | writeOnly buf w hb hc he =>
    obtain rfl : w = _ := (congrArg Prod.snd he).symm
    rw [PoolProtocols.followWrite_of_owned hget List.mem_cons_self]
    exact ⟨⟨hget, h.read⟩, hsub⟩
  | writeAndRead buf w q hb hc he hq =>
    obtain rfl : w = _ := (congrArg Prod.snd he).symm
    subst hq
    rw [PoolProtocols.followWrite_of_owned hget List.mem_cons_self]
    exact ⟨⟨hget, hread⟩, hsub⟩
  | readOnly buf q hb hc hq =>
    subst hq
    exact ⟨⟨h.write, hread⟩, List.Subset.refl _⟩

end Talk

namespace BizProcedure

open Talk (writeIds readIds)

variable {pools : PoolProtocols P} {writers readers : List ℕ}

theorem assignTalks_owned (category : Talk.Category) (timeoMs now : ℤ)
    (reqs : List (Service × Option P.Buf)) (n : ℕ) (cache : ServiceCache)
    (h : pools.Owned writers readers)
    (henc : category ≠ .kReadOnly → ∀ r ∈ reqs, ∀ buf, r.2 = some buf →
      pools.Encodes r.1.protocolCategory buf) :
    (assignTalks category timeoMs now reqs n cache pools).2.2.Owned
      (writeIds (assignTalks category timeoMs now reqs n cache pools).1 ++ writers)
      (readIds (assignTalks category timeoMs now reqs n cache pools).1 ++ readers) := by
  induction reqs generalizing n cache pools writers readers with
  | nil => exact h
  | cons r reqs ih =>
    obtain ⟨service, buf⟩ := r
    simp only [assignTalks]
    generalize hargs : (⟨n, category, some service, service.protocolCategory, buf, timeoMs,
      (cache.getFd service).1, (cache.getFd service).2.1, cache.peer service⟩ : Talk.Args P) = args
    have hone := Talk.assign_owned h now args fun b hb hc => by
      rw [← hargs] at hb hc ⊢
      exact henc hc _ List.mem_cons_self b hb
    have hrest := ih (n + 1) (cache.getFd service).2.2 hone.1 fun hc r hr b hb =>
      (henc hc r (List.mem_cons_of_mem _ hr) b hb).mono hone.2
    generalize assignTalks category timeoMs now reqs (n + 1) (cache.getFd service).2.2
      (Talk.assign pools now args).2 = q at hrest ⊢
    obtain ⟨hwrite, hread⟩ := Talk.ids_map_followAll q.1 [(Talk.assign pools now args).1]
    rw [List.map_singleton] at hwrite hread
    rw [← List.singleton_append, Talk.writeIds_append, Talk.readIds_append, hwrite, hread]
    refine ⟨hrest.write.perm ?_, hrest.read.perm ?_⟩
    all_goals
      rw [← List.append_assoc]
      exact List.perm_append_comm.append_right _

def encodings (b : BizProcedure P) : Op P → List (Protocol.Category × P.Buf)
  | .writes reqs => reqs.filterMap fun r => r.2.map (r.1.protocolCategory, ·)
  | .reads _ => []
  | .talks reqs => reqs.filterMap fun r => r.2.map (r.1.protocolCategory, ·)
  | .write service buf => [(service.protocolCategory, buf)]
  | .read _ => []
  | .simpleTalk service buf => [(service.protocolCategory, buf)]
  | .writeBack buf => [(b.protocolRead, buf)]

def AllEncode (b : BizProcedure P) : Label P → Prop
  | .call op _ _ _ _ => ∀ e ∈ b.encodings op, b.pools.Encodes e.1 e.2
  | _ => True

instance (b : BizProcedure P) : ∀ l, Decidable (AllEncode b l)
  | .call op _ _ _ _ => inferInstanceAs (Decidable (∀ e ∈ b.encodings op, _))
  | .agent _ => inferInstanceAs (Decidable True)
  | .resume => inferInstanceAs (Decidable True)
  | .freeTalks => inferInstanceAs (Decidable True)

def allEncode (P : Protocols) (conf : ConfNormal) : Machine (BizProcedure P) (Label P) :=
  (machine P conf).guarded AllEncode

instance (conf : ConfNormal) (b : BizProcedure P) (l : Label P) :
    Decidable ((allEncode P conf).enabled b l) :=
  inferInstanceAs (Decidable (Enabled b l ∧ AllEncode b l))

def alive (b : BizProcedure P) : List (Talk P) :=
  match b.waiting with
  | some p => b.tmpPoolTalks.dropLast.flatten ++ p.agent.session.talks
  | none => b.tmpPoolTalks.flatten

theorem buildTalks_owned {b : BizProcedure P} {op : Op P} (timeoMs now : ℤ)
    (h : b.pools.Owned writers readers) (henc : ∀ e ∈ b.encodings op, b.pools.Encodes e.1 e.2) :
    (b.buildTalks op timeoMs now).2.pools.Owned
      (writeIds (b.buildTalks op timeoMs now).1 ++ writers)
      (readIds (b.buildTalks op timeoMs now).1 ++ readers) := by
  have hreqs : ∀ reqs : List (Service × Option P.Buf),
      (∀ e ∈ reqs.filterMap fun r => r.2.map (r.1.protocolCategory, ·),
        b.pools.Encodes e.1 e.2) →
      ∀ r ∈ reqs, ∀ buf, r.2 = some buf → b.pools.Encodes r.1.protocolCategory buf := by
    intro reqs hall r hr buf hbuf
    exact hall (r.1.protocolCategory, buf) (List.mem_filterMap.mpr ⟨r, hr, by simp [hbuf]⟩)
  cases op with
  | writes reqs => exact assignTalks_owned _ timeoMs now _ 0 _ h fun _ => hreqs reqs henc
  | reads services => exact assignTalks_owned _ timeoMs now _ 0 _ h fun hc => absurd rfl hc
  | talks reqs => exact assignTalks_owned _ timeoMs now _ 0 _ h fun _ => hreqs reqs henc
  | write service buf =>
    exact assignTalks_owned _ timeoMs now _ 0 _ h fun _ => hreqs [(service, some buf)] henc
  | read service => exact assignTalks_owned _ timeoMs now _ 0 _ h fun hc => absurd rfl hc
  | simpleTalk service buf =>
    exact assignTalks_owned _ timeoMs now _ 0 _ h fun _ => hreqs [(service, some buf)] henc
  | writeBack buf =>
    refine (Talk.assign_owned h now _ fun buf' hb _ => ?_).1
    obtain rfl : buf = buf' := by simpa using hb
    exact henc _ List.mem_cons_self

theorem ids_keepTalks (talks : List (Talk P)) (vectors : List (List (Talk P))) :
    writeIds (keepTalks talks vectors).flatten = writeIds vectors.flatten ∧
      readIds (keepTalks talks vectors).flatten = readIds vectors.flatten := by
  rw [keepTalks, ← List.map_flatten]
  exact Talk.ids_map_followAll talks vectors.flatten

theorem followTalks_owned (talks : List (Talk P)) (h : pools.Owned writers readers) :
    (followTalks pools talks).Owned writers readers := by
  induction talks generalizing pools with
  | nil => exact h
  | cons t talks ih =>
    rw [followTalks, List.foldl_cons]
    apply ih
    cases t.protocolWrite with
    | none => exact h
    | some w => exact ⟨h.write.follow w, h.read⟩

theorem freeTalk_owned {t : Talk P}
    (h : pools.Owned (writeIds [t] ++ writers) (readIds [t] ++ readers)) :
    (freeTalk pools t).Owned writers readers := by
  unfold freeTalk
  cases hw : t.protocolWrite <;> cases hr : t.protocolRead
  all_goals
    simp only [writeIds, readIds, Talk.writeId, Talk.readId, hw, hr, List.filterMap_cons,
      List.filterMap_nil, Option.map_some, Option.map_none] at h
  · exact h
  · exact ⟨h.write, h.read.put⟩
  · exact ⟨(h.write.follow _).put, h.read⟩
  · exact ⟨(h.write.follow _).put, h.read.put⟩

theorem freeTalks_owned {talks : List (Talk P)}
    (h : pools.Owned (writeIds talks ++ writers) (readIds talks ++ readers)) :
    (talks.foldl freeTalk pools).Owned writers readers := by
  induction talks generalizing pools with
  | nil => exact h
  | cons t talks ih =>
    refine ih (freeTalk_owned ?_)
    rw [show t :: talks = [t] ++ talks from rfl, Talk.writeIds_append, Talk.readIds_append,
      List.append_assoc, List.append_assoc] at h
    exact h

/-- The procedure's talks hold what the pools have handed out to it. -/
def Owns (b : BizProcedure P) (writers readers : List ℕ) : Prop :=
  b.pools.Owned (writeIds b.alive ++ writers) (readIds b.alive ++ readers)

theorem Owns.congr {b b' : BizProcedure P} (h : b.Owns writers readers) (hp : b'.pools = b.pools)
    (hw : writeIds b'.alive = writeIds b.alive) (hr : readIds b'.alive = readIds b.alive) :
    b'.Owns writers readers := by
  rw [Owns, hp, hw, hr]
  exact h

variable {conf : ConfNormal} {b : BizProcedure P}

theorem owns_call (h : b.Inv .all) (ho : b.Owns writers readers) (hw : b.waiting.isNone)
    {op : Op P} {timeoMs now : ℤ} {accepted : Bool} {ctxs : EventCtxPool}
    (henc : ∀ e ∈ b.encodings op, b.pools.Encodes e.1 e.2) :
    (b.call op timeoMs now accepted ctxs).Owns writers readers := by
  have hnone : b.waiting = none := Option.isNone_iff_eq_none.mp hw
  have hkept := buildTalks_built (A := .all) op h.cache (.inl trivial) (.inl trivial) timeoMs now
  rw [Owns, show b.alive = b.tmpPoolTalks.flatten by rw [alive, hnone]] at ho
  have hbuilt := buildTalks_owned timeoMs now ho henc
  unfold call
  generalize b.buildTalks op timeoMs now = r at hkept hbuilt ⊢
  obtain ⟨hkw, hkr⟩ := ids_keepTalks r.1 b.tmpPoolTalks
  have hnew : r.2.pools.Owned
      (writeIds ((keepTalks r.1 b.tmpPoolTalks).flatten ++ r.1) ++ writers)
      (readIds ((keepTalks r.1 b.tmpPoolTalks).flatten ++ r.1) ++ readers) := by
    simp only [Talk.writeIds_append, Talk.readIds_append, hkw, hkr]
    refine ⟨hbuilt.write.perm ?_, hbuilt.read.perm ?_⟩
    all_goals
      rw [← List.append_assoc]
      exact List.perm_append_comm.append_right _
  have halive : r.2.alive = (keepTalks r.1 b.tmpPoolTalks).flatten ++ r.1 := by
    simp [alive, hkept.waiting, hnone, hkept.last]
  have hsuspended : ∀ p : Suspended P, p.agent.session.talks = r.1 →
      ({ r.2 with waiting := some p } : BizProcedure P).alive =
        (keepTalks r.1 b.tmpPoolTalks).flatten ++ r.1 := by
    intro p hp
    simp [alive, hkept.last, hp]
  dsimp only
  split_ifs
  · show r.2.Owns writers readers
    rw [Owns, halive]
    exact hnew
  · rw [Owns, hsuspended _ (AgentSlave.start_talks ctxs r.1)]
    exact hnew
  · show r.2.Owns writers readers
    rw [Owns, halive]
    exact hnew

theorem owns_agentStep (h : b.Inv .all) (ho : b.Owns writers readers) {l : AgentSlave.Label}
    (hl : AgentEnabled b.serviceCache l b.waiting) :
    (b.agentStep conf l).Owns writers readers := by
  cases hp : b.waiting with
  | none => rw [hp] at hl; exact hl.elim
  | some p =>
    rw [hp] at hl
    obtain ⟨talks, -, hinv, -⟩ := (h.waiting p hp).agent
    obtain ⟨hw, hr⟩ :=
      AgentSlave.next_ids hinv hl.1 (AgentSlave.tolerated_all conf p.agent l)
    refine ho.congr ?_ ?_ ?_ <;> simp only [agentStep, alive, hp]
    · simp only [Talk.writeIds_append, hw]
    · simp only [Talk.readIds_append, hr]

theorem owns_resume (h : b.Inv .all) (ho : b.Owns writers readers) (hl : Replied b.waiting) :
    b.resume.Owns writers readers := by
  cases hp : b.waiting with
  | none => rw [hp] at hl; exact hl.elim
  | some p =>
    rw [hp] at hl
    obtain ⟨talks, -, hinv, -⟩ := (h.waiting p hp).agent
    rcases hinv.replied with ⟨hsent, -⟩ | ⟨e, hsent, -⟩
    · simp [Replied, hsent] at hl
    have hfile : (b.fileOp p.op p.agent.session.talks).pools = b.pools ∧
        (b.fileOp p.op p.agent.session.talks).tmpPoolTalks = b.tmpPoolTalks := by
      unfold fileOp
      split
      · split_ifs <;> exact ⟨rfl, rfl⟩
      · exact ⟨rfl, rfl⟩
    obtain ⟨hkw, hkr⟩ := ids_keepTalks p.agent.session.talks b.tmpPoolTalks.dropLast
    have halive : b.resume.alive = (keepTalks p.agent.session.talks b.tmpPoolTalks.dropLast).flatten
        ++ p.agent.session.talks := by
      simp [resume, alive, hp, hsent, hfile.2]
    have hpools : b.resume.pools = followTalks b.pools p.agent.session.talks := by
      simp only [resume, hp, hsent, hfile.1]
    rw [Owns, alive, hp] at ho
    simp only [Talk.writeIds_append, Talk.readIds_append] at ho
    rw [Owns, halive, hpools]
    simp only [Talk.writeIds_append, Talk.readIds_append, hkw, hkr]
    exact followTalks_owned _ ho

theorem owns_freeTalks (ho : b.Owns writers readers) (hw : b.waiting = none) :
    b.freeTalks.pools.Owned writers readers := by
  rw [Owns, alive, hw] at ho
  exact freeTalks_owned ho

theorem owns_next {l : Label P} (h : b.Inv .all) (ho : b.Owns writers readers)
    (hl : Enabled b l) (henc : AllEncode b l) : (next conf b l).Owns writers readers := by
  cases l with
  | call op timeoMs now accepted ctxs => exact owns_call h ho hl henc
  | agent l => exact owns_agentStep h ho hl
  | resume => exact owns_resume h ho hl
  | freeTalks =>
    have hnone : b.waiting = none := Option.isNone_iff_eq_none.mp hl
    have halive : (next conf b .freeTalks).alive = [] := by
      simp [next, freeTalks, alive, hnone]
    rw [Owns, halive]
    exact owns_freeTalks ho hnone

/-- In every state the pools and the talks alive account for every object, each once, and
`FreeTalks` gives every object back once, as long as every buffer encodes. `writers` and
`readers` are what other procedures hold. -/
theorem objects_returned_once (conf : ConfNormal) (pools : PoolProtocols P) (fdClient : ℤ)
    (protocolRead : Protocol.Category) (writers readers : List ℕ)
    (hpools : pools.Owned writers readers) (ls : List (Label P))
    (hrun : (allEncode P conf).Admits (init pools fdClient protocolRead) ls) :
    let b := (machine P conf).exec (init pools fdClient protocolRead) ls
    b.pools.Owned (writeIds b.alive ++ writers) (readIds b.alive ++ readers) ∧
      (b.waiting = none → b.freeTalks.pools.Owned writers readers) := by
  intro b
  have h := (allEncode P conf).invariant (I := fun b => b.Inv .all ∧ b.Owns writers readers)
    (fun b l h hl => ⟨inv_next h.1 hl.1 (tolerated_all conf b l), owns_next h.1 h.2 hl.1 hl.2⟩)
    ⟨inv_init pools fdClient protocolRead, hpools⟩ hrun
  exact ⟨h.2, owns_freeTalks h.2⟩

theorem apart_of_nodup {talks : List (Talk P)} (h : (writeIds talks).Nodup) :
    Talk.Apart talks := by
  induction talks with
  | nil => exact .nil
  | cons t talks ih =>
    have hcons : writeIds (t :: talks) = t.writeId.toList ++ writeIds talks := by
      cases ht : t.writeId <;> simp [writeIds, ht]
    rw [hcons, List.nodup_append] at h
    obtain ⟨-, hrest, hdisjoint⟩ := h
    refine List.pairwise_cons.mpr ⟨fun u hu _ i hi hui => ?_, ih hrest⟩
    exact hdisjoint i (Option.mem_toList.mpr hi) i (List.mem_filterMap.mpr ⟨u, hu, hui⟩) rfl

theorem callsApart_of_owns {l : Label P} (ho : b.Owns writers readers) (hl : Enabled b l)
    (henc : AllEncode b l) : CallsApart b l := by
  cases l with
  | call op timeoMs now accepted ctxs =>
    have hnone : b.waiting = none := Option.isNone_iff_eq_none.mp hl
    rw [Owns, show b.alive = b.tmpPoolTalks.flatten by rw [alive, hnone]] at ho
    have hnodup := (buildTalks_owned timeoMs now ho henc).write.sound.nodup
    exact apart_of_nodup (List.nodup_append.mp (List.nodup_append.mp hnodup).2.1).1
  | _ => trivial

/-- As long as every buffer encodes, no two talks of an operation have a writer in common. -/
theorem admits_callsApart {conf : ConfNormal} {pools : PoolProtocols P} {fdClient : ℤ}
    {protocolRead : Protocol.Category} (hpools : pools.Owned writers readers) {ls : List (Label P)}
    (hrun : (allEncode P conf).Admits (init pools fdClient protocolRead) ls) :
    (callsApart P conf).Admits (init pools fdClient protocolRead) ls :=
  (machine P conf).admits_guarded (I := fun b => b.Inv .all ∧ b.Owns writers readers)
    (fun b l h hl henc =>
      ⟨⟨inv_next h.1 hl (tolerated_all conf b l), owns_next h.1 h.2 hl henc⟩,
        callsApart_of_owns h.2 hl henc⟩)
    ⟨inv_init pools fdClient protocolRead, hpools⟩ hrun

end BizProcedure

/-- Every Rapid request encodes, so that two talks never have a Rapid writer in common. -/
theorem Rapid.allEncode (b : BizProcedure Rapid.protocols)
    (l : BizProcedure.Label Rapid.protocols) : BizProcedure.AllEncode b l := by
  cases l with
  | call op timeoMs now accepted ctxs => exact fun _ _ => ⟨rfl, fun _ _ _ => rfl⟩
  | _ => trivial

namespace Redis

theorem emptyPools_owned : emptyPools.Owned [] [] :=
  ⟨ObjectPool.owned_empty, ObjectPool.owned_empty⟩

def writeRun (cmd : Slice) : List (BizProcedure.Label protocols) :=
  [.call (.write cacheService cmd) 100 0 false .empty, .freeTalks]

end Redis

namespace BizProcedure

open Talk (writeIds readIds)

theorem objects_returned_once_writeRun :
    let b := (machine Redis.protocols ⟨50, 50, 50⟩).exec (init Redis.emptyPools 4 .kRedis)
      (Redis.writeRun (Redis.command "ping"))
    b.pools.write.taken = [0] ∧ b.pools.Owned [] [] := by
  have h := objects_returned_once ⟨50, 50, 50⟩ Redis.emptyPools 4 .kRedis [] []
    Redis.emptyPools_owned (Redis.writeRun (Redis.command "ping")) (by decide)
  exact ⟨by decide, h.1⟩

theorem unencoded_returned_twice :
    ¬ ∀ (P : Protocols) (conf : ConfNormal) (pools : PoolProtocols P) (fdClient : ℤ)
      (protocolRead : Protocol.Category) (writers readers : List ℕ),
      pools.Owned writers readers → ∀ ls : List (Label P),
      (machine P conf).Admits (init pools fdClient protocolRead) ls →
      let b := (machine P conf).exec (init pools fdClient protocolRead) ls
      b.pools.Owned (writeIds b.alive ++ writers) (readIds b.alive ++ readers) ∧
        (b.waiting = none → b.freeTalks.pools.Owned writers readers) := by
  intro h
  have h := h Redis.protocols ⟨50, 50, 50⟩ Redis.emptyPools 4 .kRedis [] [] Redis.emptyPools_owned
    (Redis.writeRun ⟨[], [0]⟩) (by decide)
  exact absurd h.1.write.sound.nodup (by decide)

end BizProcedure

end Magneto
