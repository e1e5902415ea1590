import Magneto.AgentSlaveSpec

/-!
# The invariant of a session

Every talk stands where the loop the slave is in says it should: not reached by
`Session::Reset`, in the list of expired contexts, or started. The driver has
events only for descriptors of the session's talks, and the counter is the
number of talks marked as counted. One step works on one talk, so that the
invariant is preserved by replacing this talk; the talks that have the same
writer follow it.
-/

namespace Magneto

variable {P : Protocols} {A : Tolerance}

inductive Place
  | waiting | expiring | started
  deriving DecidableEq, Repr

namespace Pc

def pending : Pc → List ℕ
  | .clean timeouts => timeouts.map EventCtx.noTalk
  | _ => []

def place (pc : Pc) (n : ℕ) : Place :=
  match pc with
  | .reset i => if i ≤ n then .waiting else .started
  | .poll => .started
  | .clean timeouts => if n ∈ timeouts.map EventCtx.noTalk then .expiring else .started

theorem place_reset_self (i : ℕ) : (reset (i + 1)).place i = .started := if_neg (by omega)

theorem place_reset_of_ne {i m : ℕ} (h : m ≠ i) : (reset (i + 1)).place m = (reset i).place m := by
  have hiff : i + 1 ≤ m ↔ i ≤ m := by omega
  simp only [place, hiff]

theorem place_of_mem_pending {pc : Pc} {n : ℕ} (h : n ∈ pc.pending) : pc.place n = .expiring := by
  cases pc with
  | reset i => simp [pending] at h
  | poll => simp [pending] at h
  | clean timeouts => exact if_pos h

theorem pending_cleanRest (timeouts : List EventCtx) :
    (cleanRest timeouts).pending = timeouts.map EventCtx.noTalk := by
  unfold cleanRest
  split_ifs with h
  · simp [h, pending]
  · rfl

theorem place_cleanRest (timeouts : List EventCtx) (n : ℕ) :
    (cleanRest timeouts).place n = (clean timeouts).place n := by
  unfold cleanRest
  split_ifs with h
  · simp [h, place]
  · rfl

theorem resetting_cleanRest (timeouts : List EventCtx) : (cleanRest timeouts).resetting = none := by
  unfold cleanRest
  split_ifs <;> rfl

theorem cleanRest_ne (timeouts : List EventCtx) : cleanRest timeouts ≠ .clean [] := by
  unfold cleanRest
  split_ifs with h
  · simp
  · simpa using h

end Pc

def Talk.At (A : Tolerance) (d : EventsDriver) (t : Talk P) : Place → Prop
  | .waiting => t.Startable A ∧ d t.fd = none
  | .expiring => t.Working A ∧ d t.fd = none
  | .started => t.Started A d

theorem Talk.At.congr {d d' : EventsDriver} {t : Talk P} {p : Place} (h : t.At A d p)
    (hd : d' t.fd = d t.fd) : t.At A d' p := by
  cases p with
  | waiting => exact ⟨h.1, hd.trans h.2⟩
  | expiring => exact ⟨h.1, hd.trans h.2⟩
  | started => exact Talk.Started.congr h hd

theorem Talk.At.working_of_some {d : EventsDriver} {t : Talk P} {p : Place} (h : t.At A d p)
    {slot : EventsDriver.Slot} (hd : d t.fd = some slot) :
    t.Working A ∧ slot.ctx.noTalk = t.noTalk ∧ (A.untimed ∨ slot.expireTimeMs.isSome) := by
  cases p with
  | waiting => rw [h.2] at hd; cases hd
  | expiring => rw [h.2] at hd; cases hd
  | started => exact Talk.Started.active_of_some h hd

theorem Talk.At.follow {d : EventsDriver} {t : Talk P} {p : Place} (h : t.At A d p) (u : Talk P) :
    (u.follow t).At A d p := by
  cases p with
  | waiting => exact ⟨h.1.follow u, h.2⟩
  | expiring => exact ⟨h.1.follow u, h.2⟩
  | started => exact Talk.Started.follow u h

def Talk.Spares (t u : Talk P) : Prop :=
  t.error ≠ .kOk → u.error ≠ .kOk ∧ u.protocolWrite = t.protocolWrite

namespace Session

structure Inv (A : Tolerance) (s : Session P) (pc : Pc) : Prop where
  index : ∀ (i : ℕ) (t : Talk P), s.talks[i]? = some t → t.noTalk = i
  distinct : ∀ t ∈ s.talks, ∀ u ∈ s.talks, 0 < t.fd → t.fd = u.fd → t.noTalk = u.noTalk
  place : ∀ t ∈ s.talks, t.At A s.driver (pc.place t.noTalk)
  owned : ∀ fd slot, s.driver fd = some slot → 0 < fd ∧ ∃ t ∈ s.talks, t.fd = fd
  pending : pc.pending.Nodup ∧ ∀ i ∈ pc.pending, i < s.talks.length
  done : s.numTalksDone = s.talks.countP (·.counted)
  clean : s.hasFailure = false → ∀ t ∈ s.talks, t.counted = true → t.buf = none ∨ t.Succeeded
  coherent : Talk.Coherent s.talks
  apart : A.shared ∨ ∀ t ∈ s.talks, ∀ u ∈ s.talks, t.noTalk ≠ u.noTalk → t.writeId.isSome →
    t.writeId = u.writeId → t.error ≠ .kOk ∨ u.error ≠ .kOk
  bugs : .numTalksDone ∉ s.bugs

namespace Inv

variable {s s' : Session P} {pc : Pc} {n : ℕ} {t u : Talk P} {env : Env}

theorem lookup (h : s.Inv A pc) (hu : u ∈ s.talks) : s.talks[u.noTalk]? = some u := by
  obtain ⟨i, hi⟩ := List.mem_iff_getElem?.mp hu
  rw [h.index i u hi]
  exact hi

theorem pairwise_noTalk (h : s.Inv A pc) :
    s.talks.Pairwise fun x y : Talk P => x.noTalk ≠ y.noTalk := by
  rw [List.pairwise_iff_getElem]
  intro i j hi hj hij
  rw [h.index i _ (List.getElem?_eq_getElem hi), h.index j _ (List.getElem?_eq_getElem hj)]
  exact hij.ne

theorem pairwise_fd (h : s.Inv A pc) :
    s.talks.Pairwise fun x y : Talk P => 0 < x.fd → x.fd ≠ y.fd :=
  h.pairwise_noTalk.imp_of_mem fun hx hy hne hpos he => hne (h.distinct _ hx _ hy hpos he)

theorem eq_of_noTalk (h : s.Inv A pc) (ht : s.talks[n]? = some t) (hu : u ∈ s.talks)
    (hn : u.noTalk = n) : u = t := by
  have hl := h.lookup hu
  rw [hn, ht] at hl
  exact (Option.some.inj hl).symm

theorem nonpos (h : s.Inv A pc) (fd : ℤ) (hfd : fd ≤ 0) : s.driver fd = none := by
  cases hd : s.driver fd with
  | none => rfl
  | some slot =>
    have := (h.owned fd slot hd).1
    omega

theorem talk_of_slot (h : s.Inv A pc) {fd : ℤ} {slot : EventsDriver.Slot}
    (hd : s.driver fd = some slot) :
    ∃ t, s.talks[slot.ctx.noTalk]? = some t ∧ t.fd = fd ∧ t.Working A ∧
      slot.ctx.noTalk = t.noTalk ∧ (A.untimed ∨ slot.expireTimeMs.isSome) := by
  obtain ⟨-, t, ht, rfl⟩ := h.owned fd slot hd
  obtain ⟨hw, hn, htm⟩ := (h.place t ht).working_of_some hd
  exact ⟨t, hn ▸ h.lookup ht, rfl, hw, hn, htm⟩

theorem done_lt (h : s.Inv A pc) (ht : t ∈ s.talks) (hc : t.counted = false) :
    s.numTalksDone < s.talks.length := by
  rw [h.done]
  refine lt_of_le_of_ne List.countP_le_length fun he => ?_
  have := List.countP_eq_length.mp he t ht
  simp [hc] at this

theorem done_le (h : s.Inv A pc) : s.numTalksDone ≤ s.talks.length := by
  rw [h.done]
  exact List.countP_le_length

theorem quiet (h : s.Inv A pc) (hd : s.numTalksDone = s.talks.length) :
    (∀ fd, s.driver fd = none) ∧ pc.pending = [] := by
  constructor
  · intro fd
    cases hfd : s.driver fd with
    | none => rfl
    | some slot =>
      obtain ⟨t, ht, -, hw, -⟩ := h.talk_of_slot hfd
      have := h.done_lt (List.mem_of_getElem? ht) hw.counted
      omega
  · rw [List.eq_nil_iff_forall_not_mem]
    intro i hi
    have hlt := h.pending.2 i hi
    have hmem := List.getElem_mem hlt
    have hn := h.index i _ (List.getElem?_eq_getElem hlt)
    have hat := h.place _ hmem
    rw [hn, Pc.place_of_mem_pending hi] at hat
    have := h.done_lt hmem hat.1.counted
    omega

theorem unregistered (h : s.Inv A pc) (ht : s.talks[n]? = some t)
    (hfresh : AgentSlave.Fresh s n env) :
    Unregistered env (s.driver.regEventDel t.fd) t := by
  have hnone : ∀ fd, s.driver fd = none → s.driver.regEventDel t.fd fd = none := by
    intro fd hfd
    unfold EventsDriver.regEventDel
    by_cases he : fd = t.fd
    · simp [he]
    · simp [he, hfd]
  refine ⟨fun fd hfd => hnone fd (h.nonpos fd hfd), by simp, fun hpos => ?_⟩
  by_cases he : env.getFd.fd = t.fd
  · simp [he]
  refine hnone _ ?_
  cases hfd : s.driver env.getFd.fd with
  | none => rfl
  | some slot =>
    obtain ⟨x, hx, hxfd, -, hxn, -⟩ := h.talk_of_slot hfd
    have hxm := List.mem_of_getElem? hx
    by_cases hn : x.noTalk = n
    · obtain rfl := h.eq_of_noTalk ht hxm hn
      exact absurd hxfd.symm he
    · exact absurd hxfd (hfresh hpos x hxm hn)

theorem unregistered_of_none (h : s.Inv A pc) (ht : s.talks[n]? = some t)
    (hfresh : AgentSlave.Fresh s n env) (hnone : s.driver t.fd = none) :
    Unregistered env s.driver t := by
  have hu := h.unregistered ht hfresh
  rw [EventsDriver.regEventDel_of_none hnone] at hu
  exact hu

theorem talks_setTalk (hs : s'.talks = s.talks) (hn : u.noTalk = n) :
    (s'.setTalk u).talks = (s.talks.map u.follow).set n u := by
  rw [setTalk, hs, hn]

theorem get_setTalk (ht : s.talks[n]? = some t) (hs : s'.talks = s.talks) (hn : u.noTalk = n) :
    (s'.setTalk u).talks[n]? = some u := by
  rw [talks_setTalk hs hn, List.getElem?_set_self]
  rw [List.length_map]
  exact (List.getElem?_eq_some_iff.mp ht).1

theorem mem_setTalk (h : s.Inv A pc) (ht : s.talks[n]? = some t) (hs : s'.talks = s.talks)
    (hn : u.noTalk = n) {x : Talk P} :
    x ∈ (s'.setTalk u).talks ↔ x = u ∨ ∃ y ∈ s.talks, y.noTalk ≠ n ∧ u.follow y = x := by
  have hlt : n < (s.talks.map u.follow).length := by
    rw [List.length_map]
    exact (List.getElem?_eq_some_iff.mp ht).1
  rw [talks_setTalk hs hn]
  constructor
  · intro hx
    obtain ⟨i, hi⟩ := List.mem_iff_getElem?.mp hx
    rw [List.getElem?_set, List.getElem?_map] at hi
    split_ifs at hi with hni
    · exact .inl (Option.some.inj hi).symm
    · obtain ⟨y, hy, rfl⟩ := Option.map_eq_some_iff.mp hi
      exact .inr ⟨y, List.mem_of_getElem? hy, fun he => hni (by rw [← h.index i y hy, he]), rfl⟩
  · rintro (rfl | ⟨y, hy, hne, rfl⟩)
    · exact List.mem_set hlt _
    · refine List.mem_of_getElem? (i := y.noTalk) ?_
      rw [List.getElem?_set_ne hne.symm, List.getElem?_map, h.lookup hy]
      rfl

/-- A talk follows the one that was worked on, if at all, as a talk that is done for. -/
theorem follow_moves (h : s.Inv A pc) (ht : s.talks[n]? = some t) (hid : u.writeId = t.writeId)
    (hspares : t.Spares u) {x : Talk P} (hx : x ∈ s.talks) (hne : x.noTalk ≠ n) :
    x.Moves A (u.follow x) := by
  by_cases hshared : A.shared ∨ x.error ≠ .kOk
  · exact .single (.shared u hshared)
  obtain ⟨hA, he⟩ := not_or.mp hshared
  rw [Talk.follow_of_sees]
  intro hw
  have htm := List.mem_of_getElem? ht
  have hxt : x.writeId = t.writeId := hw.trans hid
  cases hsome : x.writeId with
  | none =>
    rw [hsome] at hw
    rw [Option.map_eq_none_iff.mp hsome, Option.map_eq_none_iff.mp hw.symm]
  | some i =>
    have hte : t.error ≠ .kOk := by
      have := h.apart.resolve_left hA x hx t htm (by rw [h.index n t ht]; exact hne)
        (by rw [hsome]; rfl) hxt
      exact this.resolve_left he
    rw [(hspares hte).2]
    exact h.coherent x hx t htm hxt

theorem driver_frame (h : s.Inv A pc) (ht : s.talks[n]? = some t)
    (hw : Worked A env (AgentSlave.unregister s t.fd) t s' u)
    (hfresh : AgentSlave.Fresh s n env) {x : Talk P} (hx : x ∈ s.talks) (hne : x.noTalk ≠ n) :
    s'.driver x.fd = s.driver x.fd := by
  have htn : t.noTalk = n := h.index n t ht
  have htm := List.mem_of_getElem? ht
  have hold : s.driver.regEventDel t.fd x.fd = s.driver x.fd := by
    by_cases hxt : x.fd = t.fd
    · have hle : x.fd ≤ 0 := by
        by_contra hpos
        exact hne ((h.distinct x hx t htm (by omega) hxt).trans htn)
      rw [h.nonpos _ hle, hxt, EventsDriver.regEventDel_self]
    · exact EventsDriver.regEventDel_of_ne _ hxt
  by_cases hxu : x.fd = u.fd
  · have hle : x.fd ≤ 0 := by
      by_contra hpos
      rcases hw.fd with hfd | hfd | ⟨hg, hfd⟩
      · exact hne ((h.distinct x hx t htm (by omega) (hxu.trans hfd)).trans htn)
      · omega
      · exact hfresh hg x hx hne (hxu.trans hfd)
    rw [h.nonpos _ hle, hxu]
    rcases hw.started with ⟨ha, -⟩ | ⟨hd, -⟩ | ⟨-, hd, -⟩
    · have := ha.fd
      omega
    · exact hd
    · exact hd
  · exact (hw.frame _ hxu).trans hold

theorem coherent_work (h : s.Inv A pc) (ht : s.talks[n]? = some t) (hs : s'.talks = s.talks)
    (hn : u.noTalk = n) : Talk.Coherent (s'.setTalk u).talks := by
  intro x hx y hy hid
  rcases (h.mem_setTalk ht hs hn).mp hx with rfl | ⟨x, hxs, -, rfl⟩ <;>
    rcases (h.mem_setTalk ht hs hn).mp hy with rfl | ⟨y, hys, -, rfl⟩
  · rfl
  · exact (Talk.follow_protocolWrite (by simpa using hid.symm)).symm
  · exact Talk.follow_protocolWrite (by simpa using hid)
  · rw [Talk.follow_writeId, Talk.follow_writeId] at hid
    have hxy := h.coherent x hxs y hys hid
    simp only [Talk.follow, hxy]

theorem apart_work (h : s.Inv A pc) (ht : s.talks[n]? = some t) (hs : s'.talks = s.talks)
    (hn : u.noTalk = n) (hid : u.writeId = t.writeId) (hspares : t.Spares u) :
    A.shared ∨ ∀ x ∈ (s'.setTalk u).talks, ∀ y ∈ (s'.setTalk u).talks, x.noTalk ≠ y.noTalk →
      x.writeId.isSome → x.writeId = y.writeId → x.error ≠ .kOk ∨ y.error ≠ .kOk := by
  refine h.apart.imp_right fun hapart x hx y hy hne hsome hxy => ?_
  have htm := List.mem_of_getElem? ht
  have htn := h.index n t ht
  -- the talk worked on has the writer it had, and keeps an error code it had
  have key : ∀ z ∈ s.talks, z.noTalk ≠ n → u.writeId.isSome → z.writeId = u.writeId →
      u.error ≠ .kOk ∨ z.error ≠ .kOk := by
    intro z hz hzn hsome hzu
    rw [hid] at hsome hzu
    rcases hapart t htm z hz (by rw [htn]; exact hzn.symm) hsome hzu.symm with he | he
    · exact .inl (hspares he).1
    · exact .inr he
  rcases (h.mem_setTalk ht hs hn).mp hx with rfl | ⟨x, hxs, hxn, rfl⟩ <;>
    rcases (h.mem_setTalk ht hs hn).mp hy with rfl | ⟨y, hys, hyn, rfl⟩
  · exact absurd rfl hne
  · exact key y hys hyn hsome (by simpa using hxy.symm)
  · rw [hxy] at hsome
    exact (key x hxs hxn hsome (by simpa using hxy)).symm
  · exact hapart x hxs y hys hne (by simpa using hsome) (by simpa using hxy)

theorem work (pc' : Pc) (h : s.Inv A pc) (ht : s.talks[n]? = some t) (hc : t.counted = false)
    (hw : Worked A env (AgentSlave.unregister s t.fd) t s' u) (hspares : t.Spares u)
    (hfresh : AgentSlave.Fresh s n env) (hstarted : pc'.place n = .started)
    (hothers : ∀ m, m ≠ n → pc'.place m = pc.place m)
    (hpending : pc'.pending.Nodup ∧ ∀ i ∈ pc'.pending, i < s.talks.length) :
    (s'.setTalk u).Inv A pc' := by
  have hun : u.noTalk = n := hw.noTalk.trans (h.index n t ht)
  have htm := List.mem_of_getElem? ht
  have hmem {x : Talk P} := h.mem_setTalk ht hw.talks hun (x := x)
  have htalks : (s'.setTalk u).talks = (s.talks.map u.follow).set n u := talks_setTalk hw.talks hun
  have hfd : ∀ x ∈ s.talks, x.noTalk ≠ n → 0 < x.fd → x.fd ≠ u.fd := by
    intro x hx hne hpos hxu
    rcases hw.fd with hfd | hfd | ⟨hg, hfd⟩
    · exact hne ((h.distinct x hx t htm hpos (hxu.trans hfd)).trans (h.index n t ht))
    · omega
    · exact hfresh hg x hx hne (hxu.trans hfd)
  exact {
    index := by
      intro i x hx
      rw [htalks, List.getElem?_set, List.getElem?_map] at hx
      split_ifs at hx with hni
      · rw [← Option.some.inj hx, hun, hni]
      · obtain ⟨y, hy, rfl⟩ := Option.map_eq_some_iff.mp hx
        exact h.index i y hy
    distinct := by
      intro x hx y hy hpos he
      rcases hmem.mp hx with hxu | ⟨x, hxs, hxn, rfl⟩ <;>
        rcases hmem.mp hy with hyu | ⟨y, hys, hyn, rfl⟩
      · rw [hxu, hyu]
      · rw [hxu] at he hpos
        exact absurd he.symm (hfd y hys hyn (he ▸ hpos))
      · rw [hyu] at he
        exact absurd he (hfd x hxs hxn hpos)
      · exact h.distinct x hxs y hys hpos he
    place := by
      intro x hx
      rcases hmem.mp hx with rfl | ⟨x, hxs, hxn, rfl⟩
      · rw [hun, hstarted]
        exact hw.started
      · rw [Talk.follow_noTalk, hothers _ hxn]
        exact ((h.place x hxs).congr (h.driver_frame ht hw hfresh hxs hxn)).follow u
    owned := by
      intro fd slot hd
      by_cases hfu : fd = u.fd
      · subst hfu
        exact ⟨(hw.started.active_of_some hd).1.fd, u, hmem.mpr (.inl rfl), rfl⟩
      · have hd' : s.driver.regEventDel t.fd fd = some slot := (hw.frame fd hfu).symm.trans hd
        have hft : fd ≠ t.fd := by
          rintro rfl
          simp at hd'
        rw [EventsDriver.regEventDel_of_ne _ hft] at hd'
        obtain ⟨hpos, x, hx, hxfd⟩ := h.owned fd slot hd'
        refine ⟨hpos, _, hmem.mpr (.inr ⟨x, hx, fun hxn => ?_, rfl⟩), hxfd⟩
        rw [h.eq_of_noTalk ht hx hxn] at hxfd
        exact hft hxfd.symm
    pending := ⟨hpending.1, by rw [htalks, List.length_set, List.length_map]; exact hpending.2⟩
    done := by
      have hget : (s.talks.map u.follow)[n]? = some (u.follow t) := by
        rw [List.getElem?_map, ht]
        rfl
      have hcount : (s.talks.map u.follow).countP (·.counted) = s.talks.countP (·.counted) := by
        rw [List.countP_map]
        rfl
      rw [htalks, List.countP_set_of_not _ hget hc, hcount, ← h.done]
      exact hw.done
    clean := by
      intro hf x hx hxc
      have hclean := hw.failure hf
      rcases hmem.mp hx with rfl | ⟨x, hxs, -, rfl⟩
      · exact hclean.2 hxc
      · exact (h.clean hclean.1 x hxs hxc).imp_right (Talk.Succeeded.follow u)
    coherent := h.coherent_work ht hw.talks hun
    apart := h.apart_work ht hw.talks hun hw.moves.ids_eq.1 hspares
    bugs := fun hb => h.bugs (hw.bugs (h.done_lt htm hc) hb) }

end Inv

end Session

end Magneto
