import Magneto.IOBasicFiling

/-!
# The connections an operation takes

`GetFdFromServiceCache` takes an entry out before anything can fail. An operation
that returns before it is resumed files nothing, and a talk that could not be
encoded has lost its descriptor when it is filed: the connections taken for them
are neither in the cache nor closed.
-/

namespace Magneto

variable {P : Protocols}

theorem Talk.assign_taken (pools : PoolProtocols P) (now : ℤ) (args : Talk.Args P) :
    (Talk.assign pools now args).1.error = .kOk ∧
        (Talk.assign pools now args).1.fd = args.fd ∧
        (Talk.assign pools now args).1.remote = args.remote ∧
        (Talk.assign pools now args).1.peer = args.peer ∨
      (Talk.assign pools now args).1.error ≠ .kOk ∧ (Talk.assign pools now args).1.fd = -1 := by
  have h := Talk.assign_cases pools now args
  generalize Talk.assign pools now args = r at h ⊢
  cases h with
  | unencoded => exact .inr ⟨by simp, rfl⟩
  | _ => exact .inl ⟨rfl, rfl, rfl, rfl⟩

namespace BizProcedure

open ServiceCache

def Takes (b : BizProcedure P) (op : Op P) (i : ℕ) (e : CachedFd) : Prop :=
  e ∈ b.serviceCache ∧ op.nos[i]? = some e.no ∧ ∀ j < i, op.nos[j]? ≠ some e.no

section takes

variable {b : BizProcedure P} {op : Op P} {i : ℕ} {e : CachedFd}

theorem exists_takes (he : e ∈ b.serviceCache) (hno : e.no ∈ op.nos) : ∃ i, Takes b op i e := by
  have hex : ∃ i, op.nos[i]? = some e.no := List.mem_iff_getElem?.mp hno
  classical
  exact ⟨Nat.find hex, he, Nat.find_spec hex, fun j hj => Nat.find_min hex hj⟩

theorem Takes.no_mem (h : Takes b op i e) : e.no ∈ op.nos := List.mem_of_getElem? h.2.1

theorem Takes.not_writeBack (h : Takes b op i e) : ∀ buf, op ≠ .writeBack buf := by
  rintro buf rfl
  simpa [Op.nos, Op.reqs] using h.no_mem

theorem Takes.index_unique {j : ℕ} (h : Takes b op i e) (h' : Takes b op j e) : i = j := by
  rcases lt_trichotomy i j with hlt | heq | hgt
  · exact absurd h.2.1 (h'.2.2 i hlt)
  · exact heq
  · exact absurd h'.2.1 (h.2.2 j hgt)

theorem exists_takes_iff (hc : b.serviceCache.Ok) (op : Op P) (timeoMs now : ℤ) (e : CachedFd) :
    (∃ i, Takes b op i e) ↔
      e ∈ b.serviceCache ∧ e ∉ (b.buildTalks op timeoMs now).2.serviceCache := by
  obtain ⟨hkeyed, hentry⟩ := buildTalks_cache hc.keyed op timeoMs now
  rw [KeyedList.mem_iff_get hkeyed, ← entry, hentry]
  constructor
  · rintro ⟨i, h⟩
    rw [if_pos h.no_mem]
    exact ⟨h.1, by simp⟩
  · rintro ⟨he, hnot⟩
    refine exists_takes he ?_
    by_contra hno
    rw [if_neg hno] at hnot
    exact hnot (KeyedList.get_of_mem hc.keyed he)

theorem buildTalks_sublist (hc : b.serviceCache.Ok) (op : Op P) (timeoMs now : ℤ) :
    List.Sublist (b.buildTalks op timeoMs now).2.serviceCache b.serviceCache :=
  (buildTalks_all hc.sound op timeoMs now).sublist

theorem buildTalks_eq_iff (hc : b.serviceCache.Ok) (op : Op P) (timeoMs now : ℤ) :
    (b.buildTalks op timeoMs now).2.serviceCache = b.serviceCache ↔ ∀ i e, ¬ Takes b op i e := by
  constructor
  · intro heq i e h
    obtain ⟨he, hnot⟩ := (exists_takes_iff hc op timeoMs now e).mp ⟨i, h⟩
    exact hnot (heq ▸ he)
  · intro h
    have hsub : b.serviceCache ⊆ (b.buildTalks op timeoMs now).2.serviceCache := by
      intro e he
      by_contra hnot
      obtain ⟨i, ht⟩ := (exists_takes_iff hc op timeoMs now e).mpr ⟨he, hnot⟩
      exact h i e ht
    have hnodup : b.serviceCache.Nodup := List.Nodup.of_map _ hc.keyed
    apply (buildTalks_sublist hc op timeoMs now).eq_of_length_le
    exact (List.subperm_of_subset hnodup hsub).length_le

theorem takes_iff (hc : b.serviceCache.Ok) {service : Service} {buf : Option P.Buf}
    (hreq : op.reqs[i]? = some (service, buf)) (e : CachedFd) :
    Takes b op i e ↔ (if service.no ∈ (op.reqs.take i).map fun r => r.1.no then none
      else b.serviceCache.entry service.no) = some e := by
  have hno : op.nos[i]? = some service.no := by simp [Op.nos, hreq]
  have hearlier : service.no ∈ (op.reqs.take i).map (fun r => r.1.no) ↔
      ∃ j < i, op.nos[j]? = some service.no := by
    have htake : (op.reqs.take i).map (fun r => r.1.no) = op.nos.take i := List.map_take
    rw [htake, List.mem_iff_getElem?]
    refine exists_congr fun j => ?_
    rw [List.getElem?_take]
    split_ifs with hj
    · simp [hj]
    · simp [hj]
  constructor
  · rintro ⟨he, hi, hfirst⟩
    have hkey : service.no = e.no := Option.some.inj (hno.symm.trans hi)
    rw [if_neg, hkey]
    · exact KeyedList.get_of_mem hc.keyed he
    · rw [hearlier, hkey]
      rintro ⟨j, hj, hjno⟩
      exact hfirst j hj hjno
  · intro h
    split_ifs at h with hmem
    obtain ⟨he, hkey⟩ := KeyedList.mem_of_get h
    rw [hearlier] at hmem
    refine ⟨he, hkey ▸ hno, fun j hj hjno => hmem ⟨j, hj, hkey ▸ hjno⟩⟩

theorem buildTalks_get (hc : b.serviceCache.Ok) (hop : ∀ buf, op ≠ .writeBack buf)
    (timeoMs now : ℤ) (hi : i < op.nos.length) :
    ∃ t, (b.buildTalks op timeoMs now).1[i]? = some t ∧ ∃ o : Option CachedFd,
      (∀ e, o = some e ↔ Takes b op i e) ∧
      (t.error = .kOk ∧ t.fd = o.elim 0 CachedFd.fd ∧ t.remote = o.bind CachedFd.remote ∧
          t.peer = o.bind CachedFd.peer ∨
        t.error ≠ .kOk ∧ t.fd = -1) := by
  obtain ⟨category, heq⟩ := b.buildTalks_reqs hop timeoMs now
  rw [heq]
  have hlt : i < op.reqs.length := by simpa [Op.nos] using hi
  have hreq : op.reqs[i]? = some op.reqs[i] := List.getElem?_eq_getElem hlt
  obtain ⟨pools', us, o, hget, ho⟩ := assignTalks_get 0 hc.keyed hreq
  refine ⟨_, hget, o, fun e => ?_, ?_⟩
  · rw [takes_iff hc hreq, ho]
  · generalize hargs : (⟨0 + i, category, some _, _, _, timeoMs, _, _, _⟩ : Talk.Args P) = args
    obtain ⟨w, hw⟩ := Talk.followAll_eq us (Talk.assign pools' now args).1
    rw [hw]
    subst hargs
    exact Talk.assign_taken pools' now _

theorem Takes.built (hc : b.serviceCache.Ok) (h : Takes b op i e) (timeoMs now : ℤ) :
    ∃ t, (b.buildTalks op timeoMs now).1[i]? = some t ∧
      (t.error = .kOk ∧ t.fd = e.fd ∧ t.remote = e.remote ∧ t.peer = e.peer ∨
        t.error ≠ .kOk ∧ t.fd = -1) := by
  have hi : i < op.nos.length := (List.getElem?_eq_some_iff.mp h.2.1).1
  obtain ⟨t, ht, o, ho, hcase⟩ := buildTalks_get hc h.not_writeBack timeoMs now hi
  obtain rfl := (ho e).mpr h
  exact ⟨t, ht, hcase⟩

theorem takes_of_fd {timeoMs now : ℤ} (hc : b.serviceCache.Ok) (hop : ∀ buf, op ≠ .writeBack buf)
    {t : Talk P} (ht : (b.buildTalks op timeoMs now).1[i]? = some t) (hpos : 0 < t.fd) :
    ∃ e, Takes b op i e ∧ t.fd = e.fd := by
  have hlen := congrArg List.length (b.buildTalks_no hop timeoMs now)
  rw [List.length_map, List.length_map] at hlen
  have hi : i < op.nos.length := hlen ▸ (List.getElem?_eq_some_iff.mp ht).1
  obtain ⟨t', ht', o, ho, hcase⟩ := buildTalks_get hc hop timeoMs now hi
  obtain rfl : t = t' := Option.some.inj (ht.symm.trans ht')
  rcases hcase with ⟨-, hfd, -⟩ | ⟨-, hfd⟩
  · cases o with
    | none =>
      rw [hfd] at hpos
      exact absurd hpos (lt_irrefl 0)
    | some e => exact ⟨e, (ho e).mp rfl, hfd⟩
  · omega

end takes

theorem call_serviceCache {b : BizProcedure P} {op : Op P} {timeoMs now : ℤ} {accepted : Bool}
    {ctxs : EventCtxPool} :
    (b.call op timeoMs now accepted ctxs).serviceCache =
      (b.buildTalks op timeoMs now).2.serviceCache := by
  unfold call
  dsimp only
  split_ifs <;> rfl

section returned

variable {conf : ConfNormal} {b b' : BizProcedure P} {op : Op P} {timeoMs now : ℤ}
  {ctxs : EventCtxPool} {ls : List AgentSlave.Label} {s : Session P} {i : ℕ} {e : CachedFd}

def LaterOpen (s : Session P) (i : ℕ) (e : CachedFd) : Prop :=
  ∀ j v, i < j → s.talks[j]? = some v → v.no = some e.no → 0 < v.fd

theorem Returned.taken (h : Returned conf b op timeoMs now ctxs ls b' s)
    (hc : b.serviceCache.Ok) (ht : Takes b op i e) {t : Talk P}
    (hb : (b.buildTalks op timeoMs now).1[i]? = some t) (herr : t.error = .kOk) :
    ∃ u, s.talks[i]? = some u ∧ u.no = some e.no ∧
      (u.fd = e.fd ∧ u.remote = e.remote ∧ u.peer = e.peer ∨ e.fd ∈ s.closed) := by
  have hbuilt := buildTalks_all hc.sound op timeoMs now
  obtain ⟨-, cs, hclosed, htalks, hcs⟩ := h.tracked hbuilt.built
  obtain ⟨c, hget, htr⟩ := hcs i t hb
  obtain ⟨t', ht', hcase⟩ := ht.built hc timeoMs now
  obtain rfl : t = t' := Option.some.inj (hb.symm.trans ht')
  obtain ⟨-, hfd, hremote, hpeer⟩ := hcase.resolve_right fun hne => hne.1 herr
  have hu : s.talks[i]? = some c.talk := by rw [htalks, List.getElem?_map, hget]; rfl
  refine ⟨c.talk, hu, ?_, ?_⟩
  · have hno := congrArg (fun l => l[i]?) (h.no_eq hbuilt.built ht.not_writeBack)
    simpa [hu, ht.2.1] using hno
  · have hpos : 0 < t.fd := hfd ▸ hc.sound.pos e.fd (List.mem_map_of_mem ht.1)
    rw [← hfd, ← hremote, ← hpeer]
    refine (htr.held hpos).imp_right fun hmem => hclosed.mem_iff.mpr ?_
    exact List.mem_flatMap.mpr ⟨c, List.mem_of_getElem? hget, hmem⟩

theorem Takes.not_own (hc : b.serviceCache.Ok) (ht : Takes b op i e) {t : Talk P}
    (hb : (b.buildTalks op timeoMs now).1[i]? = some t) (hfd : t.fd = -1) {envs : List Env}
    (hfresh : ∀ env ∈ envs, env.getFd.fd ≠ e.fd) {j : ℕ} {v : Talk P}
    (hv : (b.buildTalks op timeoMs now).1[j]? = some v) : ¬ v.OwnFd envs e.fd := by
  have hpos : 0 < e.fd := hc.sound.pos e.fd (List.mem_map_of_mem ht.1)
  rintro (hle | heq | ⟨env, henv, heq⟩)
  · omega
  · obtain ⟨e', ht', hfd'⟩ := takes_of_fd hc ht.not_writeBack hv (heq ▸ hpos)
    obtain rfl : e = e' := hc.sound.inj ht.1 ht'.1 (heq.trans hfd')
    obtain rfl := ht.index_unique ht'
    obtain rfl : t = v := Option.some.inj (hb.symm.trans hv)
    omega
  · exact hfresh env henv heq.symm

theorem Returned.unencoded_lost (h : Returned conf b op timeoMs now ctxs ls b' s)
    (hc : b.serviceCache.Ok) (ht : Takes b op i e) {t : Talk P}
    (hb : (b.buildTalks op timeoMs now).1[i]? = some t) (herr : t.error ≠ .kOk)
    (hfresh : ∀ env ∈ ls.filterMap AgentSlave.Label.env, env.getFd.fd ≠ e.fd) :
    e ∉ b'.serviceCache ∧ e.fd ∉ s.closed := by
  have hbuilt := buildTalks_all hc.sound op timeoMs now
  obtain ⟨hlen, cs, hclosed, htalks, hcs⟩ := h.tracked hbuilt.built
  obtain ⟨t', ht', hcase⟩ := ht.built hc timeoMs now
  obtain rfl : t = t' := Option.some.inj (hb.symm.trans ht')
  have hfd : t.fd = -1 := (hcase.resolve_left fun hok => herr hok.1).2
  have htracked : ∀ c ∈ cs, ¬ (c.talk.fd = e.fd ∨ e.fd ∈ c.log.closed) := by
    intro c hcmem
    obtain ⟨j, hj⟩ := List.mem_iff_getElem?.mp hcmem
    have hjlt : j < (b.buildTalks op timeoMs now).1.length := by
      rw [← hlen, htalks, List.length_map]
      exact (List.getElem?_eq_some_iff.mp hj).1
    have hv := List.getElem?_eq_getElem hjlt
    obtain ⟨c', hj', htr⟩ := hcs j _ hv
    obtain rfl : c = c' := Option.some.inj (hj.symm.trans hj')
    rintro (heq | hmem)
    · exact ht.not_own hc hb hfd hfresh hv (heq ▸ htr.fd)
    · exact ht.not_own hc hb hfd hfresh hv (htr.own _ hmem)
  constructor
  · intro hmem
    obtain ⟨hkeyed, hentry⟩ := buildTalks_cache hc.keyed op timeoMs now
    rw [h.filed ht.not_writeBack, KeyedList.mem_iff_get (fileTalks_keyed _ hkeyed)] at hmem
    rcases entry_fileTalks_cases hkeyed hmem with he | ⟨u, hu, -, -, he⟩
    · rw [hentry, if_pos ht.no_mem] at he
      cases he
    · rw [htalks] at hu
      obtain ⟨c, hcmem, rfl⟩ := List.mem_map.mp hu
      exact htracked c hcmem (.inl (congrArg CachedFd.fd he).symm)
  · intro hmem
    obtain ⟨c, hcmem, hmem⟩ := List.mem_flatMap.mp (hclosed.mem_iff.mp hmem)
    exact htracked c hcmem (.inr hmem)

theorem laterOpen_iff {pre post : List (Talk P)} {u : Talk P}
    (hsplit : s.talks = pre ++ u :: post) :
    LaterOpen s pre.length e ↔ ∀ t ∈ post, t.no = some e.no → 0 < t.fd := by
  unfold LaterOpen
  rw [hsplit]
  constructor
  · intro hl t htm
    obtain ⟨j, hj⟩ := List.mem_iff_getElem?.mp htm
    refine hl (pre.length + (j + 1)) t (by omega) ?_
    rw [List.getElem?_append_right (by omega), Nat.add_sub_cancel_left]
    exact hj
  · intro hl j v hij hv
    obtain ⟨k, rfl⟩ : ∃ k, j = pre.length + (k + 1) := ⟨j - pre.length - 1, by omega⟩
    rw [List.getElem?_append_right (by omega), Nat.add_sub_cancel_left] at hv
    exact hl v (List.mem_of_getElem? hv)

theorem Takes.earlier_ne {pre post : List (Talk P)} (ht : Takes b op pre.length e)
    (hnos : (pre ++ post).map Talk.no = op.nos.map some) : ∀ t ∈ pre, t.no ≠ some e.no := by
  intro t htm htno
  obtain ⟨j, hj⟩ := List.mem_iff_getElem?.mp htm
  have hlt := (List.getElem?_eq_some_iff.mp hj).1
  have hjno : ((pre ++ post).map Talk.no)[j]? = some (some e.no) := by
    rw [List.getElem?_map, List.getElem?_append_left hlt, hj, Option.map_some, htno]
  rw [hnos, List.getElem?_map, Option.map_eq_some_iff] at hjno
  obtain ⟨no, hget, hno⟩ := hjno
  exact ht.2.2 j hlt (Option.some.inj hno ▸ hget)

/-- The entry of a talk that kept its descriptor is filed again exactly when no later talk
of its service ended without one. -/
theorem Returned.refiled_iff (h : Returned conf b op timeoMs now ctxs ls b' s)
    (hc : b.serviceCache.Ok) (ht : Takes b op i e) {u : Talk P} (hu : s.talks[i]? = some u)
    (hno : u.no = some e.no) (hfd : u.fd = e.fd) (hremote : u.remote = e.remote)
    (hpeer : u.peer = e.peer) :
    e ∈ b'.serviceCache ↔ LaterOpen s i e := by
  have hbuilt := buildTalks_all hc.sound op timeoMs now
  obtain ⟨hkeyed, hentry⟩ := buildTalks_cache hc.keyed op timeoMs now
  have hpos : 0 < u.fd := hfd ▸ hc.sound.pos e.fd (List.mem_map_of_mem ht.1)
  have hnos := h.no_eq hbuilt.built ht.not_writeBack
  obtain ⟨pre, post, hsplit, rfl⟩ := List.exists_append_of_getElem? hu
  have hne := ht.earlier_ne (hsplit ▸ hnos)
  have hdistinct : ∀ t ∈ post, 0 < t.fd → t.fd ≠ e.fd := by
    intro t htm htpos heq
    have hpair := h.inv.pairwise_fd
    rw [hsplit] at hpair
    have hrest := List.pairwise_cons.mp (List.pairwise_append.mp hpair).2.1
    exact hrest.1 t htm hpos (hfd.trans heq.symm)
  have hfirst := entry_fileTalks_first hkeyed ((hentry e.no).trans (if_pos ht.no_mem)) hne hno hpos
  have he : entryOf e.no u = e := by
    unfold entryOf
    rw [hfd, hremote, hpeer]
  rw [he] at hfirst
  rw [h.filed ht.not_writeBack, KeyedList.mem_iff_get (fileTalks_keyed _ hkeyed), hsplit,
    fileTalks_append, laterOpen_iff hsplit]
  exact entry_fileTalks_iff (fileTalk_keyed (fileTalks_keyed pre hkeyed) u) hfirst hdistinct

def Encodes (b : BizProcedure P) (op : Op P) (timeoMs now : ℤ) (i : ℕ) : Prop :=
  ∀ t, (b.buildTalks op timeoMs now).1[i]? = some t → t.error = .kOk

/-- The descriptors that talks which did not encode have left open are not returned by `GetFd`. -/
def StayOpen (b : BizProcedure P) (op : Op P) (timeoMs now : ℤ) (ls : List AgentSlave.Label) :
    Prop :=
  ∀ i e, Takes b op i e → ¬ Encodes b op timeoMs now i →
    ∀ env ∈ ls.filterMap AgentSlave.Label.env, env.getFd.fd ≠ e.fd

theorem Returned.kept_of (h : Returned conf b op timeoMs now ctxs ls b' s)
    (hc : b.serviceCache.Ok) (ht : Takes b op i e) (henc : Encodes b op timeoMs now i)
    (hlater : e.fd ∈ s.closed ∨ LaterOpen s i e) : e ∈ b'.serviceCache ∨ e.fd ∈ s.closed := by
  rcases hlater with hclosed | hlater
  · exact .inr hclosed
  · obtain ⟨t, hb, -⟩ := ht.built hc timeoMs now
    obtain ⟨u, hu, hno, ⟨hfd, hremote, hpeer⟩ | hclosed⟩ := h.taken hc ht hb (henc t hb)
    · exact .inl ((h.refiled_iff hc ht hu hno hfd hremote hpeer).mpr hlater)
    · exact .inr hclosed

theorem Returned.of_kept (h : Returned conf b op timeoMs now ctxs ls b' s)
    (hc : b.serviceCache.Ok) (hopen : StayOpen b op timeoMs now ls) (ht : Takes b op i e)
    (hkept : e ∈ b'.serviceCache ∨ e.fd ∈ s.closed) :
    Encodes b op timeoMs now i ∧ (e.fd ∈ s.closed ∨ LaterOpen s i e) := by
  have henc : Encodes b op timeoMs now i := by
    by_contra hnot
    obtain ⟨t, hb, herr⟩ : ∃ t, (b.buildTalks op timeoMs now).1[i]? = some t ∧ t.error ≠ .kOk := by
      simpa [Encodes] using hnot
    obtain ⟨hcache, hclosed⟩ := h.unencoded_lost hc ht hb herr (hopen i e ht hnot)
    exact hkept.elim hcache hclosed
  refine ⟨henc, ?_⟩
  obtain ⟨t, hb, -⟩ := ht.built hc timeoMs now
  obtain ⟨u, hu, hno, ⟨hfd, hremote, hpeer⟩ | hclosed⟩ := h.taken hc ht hb (henc t hb)
  · rcases hkept with hcache | hclosed
    · exact .inr ((h.refiled_iff hc ht hu hno hfd hremote hpeer).mp hcache)
    · exact .inl hclosed
  · exact .inl hclosed

end returned

/-- When the connections that an operation takes out of the service cache are kept. One that
returns at once, with `kQueueBusy` or with the `kEncode` of its only talk, keeps them, and
leaves the cache as it was, only if it took none. One that is resumed keeps them exactly when
each of them was taken for a talk that encoded and, unless it was closed, no later talk of the
service ended without a descriptor. -/
theorem entries_kept_iff {conf : ConfNormal} {b : BizProcedure P} (hc : b.serviceCache.Ok)
    (op : Op P) (timeoMs now : ℤ) (ctxs : EventCtxPool) :
    (∀ accepted ret, (b.call op timeoMs now accepted ctxs).returns =
        b.returns ++ [⟨op, ret, none, false⟩] →
      let b' := b.call op timeoMs now accepted ctxs
      (b'.serviceCache = b.serviceCache ↔ ∀ i e, ¬ Takes b op i e) ∧
      ((∀ i e, Takes b op i e → e ∈ b'.serviceCache) ↔ ∀ i e, ¬ Takes b op i e)) ∧
    ∀ ls : List AgentSlave.Label, (machine P conf).Admits b
        (.call op timeoMs now true ctxs :: (ls.map .agent ++ [.resume])) →
      let b' := (machine P conf).exec b
        (.call op timeoMs now true ctxs :: (ls.map .agent ++ [.resume]))
      ∃ s, b'.returns.getLast?.bind OpReturn.session = some s ∧
        ((∀ i e, Takes b op i e → Encodes b op timeoMs now i ∧
            (e.fd ∈ s.closed ∨ LaterOpen s i e)) →
          ∀ i e, Takes b op i e → e ∈ b'.serviceCache ∨ e.fd ∈ s.closed) ∧
        (StayOpen b op timeoMs now ls →
          (∀ i e, Takes b op i e → e ∈ b'.serviceCache ∨ e.fd ∈ s.closed) →
          ∀ i e, Takes b op i e → Encodes b op timeoMs now i ∧
            (e.fd ∈ s.closed ∨ LaterOpen s i e)) := by
  constructor
  · intro accepted ret _ b'
    have hcache : b'.serviceCache = (b.buildTalks op timeoMs now).2.serviceCache :=
      call_serviceCache
    rw [hcache]
    refine ⟨buildTalks_eq_iff hc op timeoMs now, fun h i e ht => ?_, fun h i e ht => ?_⟩
    · exact ((exists_takes_iff hc op timeoMs now e).mp ⟨i, ht⟩).2 (h i e ht)
    · exact absurd ht (h i e)
  · intro ls hrun b'
    obtain ⟨s, hret⟩ := call_returned hc.sound hrun
    refine ⟨s, hret.returns, fun h i e ht => ?_, fun hopen h i e ht => ?_⟩
    · exact hret.kept_of hc ht (h i e ht).1 (h i e ht).2
    · exact hret.of_kept hc hopen ht (h i e ht)

def cachedClient : BizProcedure Rapid.protocols :=
  { Rapid.oneClient with serviceCache := [⟨0, 7, some (.elem (Rapid.oneService 0) 0), none⟩] }

def cachedWrite : Op Rapid.protocols := .write (Rapid.oneService 0) Rapid.oneRequest

theorem cachedClient_ok : cachedClient.serviceCache.Ok :=
  ⟨by simp [cachedClient, KeyedList.Keyed], by simp [cachedClient, fds],
    by simp [cachedClient, fds]⟩

theorem cachedClient_takes : Takes cachedClient cachedWrite 0
    ⟨0, 7, some (.elem (Rapid.oneService 0) 0), none⟩ :=
  ⟨by simp [cachedClient], rfl, by simp⟩

/-- The request is written over the connection taken from the cache. -/
def cachedRun : List AgentSlave.Label :=
  [.reset (Rapid.connected 8 []), .ready 7 .kOut (Rapid.connected 8 [])]

theorem entries_kept_iff_cachedClient :
    (cachedClient.call cachedWrite 100 0 false .empty).serviceCache ≠ cachedClient.serviceCache ∧
    let b' := (machine Rapid.protocols ⟨50, 50, 50⟩).exec cachedClient
      (.call cachedWrite 100 0 true .empty :: (cachedRun.map .agent ++ [.resume]))
    ∃ s, b'.returns.getLast?.bind OpReturn.session = some s ∧
      ∀ i e, Takes cachedClient cachedWrite i e → e ∈ b'.serviceCache ∨ e.fd ∈ s.closed := by
  obtain ⟨hrefused, hresumed⟩ := @entries_kept_iff _ ⟨50, 50, 50⟩ _ cachedClient_ok
    cachedWrite 100 0 .empty
  constructor
  · intro heq
    exact ((hrefused false .kQueueBusy rfl).1.mp heq) 0 _ cachedClient_takes
  · intro b'
    obtain ⟨s, hs, hkept, -⟩ := hresumed cachedRun (by decide)
    refine ⟨s, hs, hkept fun i e ht => ?_⟩
    have hlen : (b'.returns.getLast?.bind OpReturn.session).map (fun s => s.talks.length) =
        some 1 := by decide
    rw [show b'.returns.getLast?.bind OpReturn.session = some s from hs] at hlen
    have hone : s.talks.length = 1 := Option.some.inj hlen
    have hi : i < 1 := (List.getElem?_eq_some_iff.mp ht.2.1).1
    obtain rfl : i = 0 := by omega
    refine ⟨fun t hb => ?_, .inr fun j v hj hv => ?_⟩
    · obtain rfl := Option.some.inj hb
      rfl
    · have hjlt := (List.getElem?_eq_some_iff.mp hv).1
      omega

theorem refusedCall_dropped :
    ¬ ∀ (P : Protocols) (b : BizProcedure P), b.serviceCache.Ok →
      ∀ (op : Op P) (timeoMs now : ℤ) (ctxs : EventCtxPool),
      (b.call op timeoMs now false ctxs).returns =
        b.returns ++ [⟨op, .kQueueBusy, none, false⟩] →
      ∀ i e, Takes b op i e → e ∈ (b.call op timeoMs now false ctxs).serviceCache := by
  intro h
  have hmem := h _ cachedClient cachedClient_ok cachedWrite 100 0 .empty rfl 0 _ cachedClient_takes
  exact absurd hmem (by decide)

end BizProcedure

end Magneto
