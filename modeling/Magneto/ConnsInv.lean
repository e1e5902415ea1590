import Magneto.ConnsMgrSpec
import Magneto.ConnsRun

/-!
# Who holds the connections

An open descriptor is held by at most one idle list, talk or cached pair, and it
was connected to the address its holder stands for: the address of the pool, or
the one its reference denotes. Every step keeps this, as long as a refill of the
scratch vector does not change what a reference in use denotes.
-/

namespace Magneto.ConnsSystem

inductive Holder
  | idle (addr : Addr)
  | talk (k : ℕ)
  | cached (j : ℕ)

def Holds (s : ConnsSystem) (fd : ℤ) : Holder → Prop
  | .idle addr => ∃ p, s.mgr.conns addr = some p ∧ fd ∈ p.fds
  | .talk k => (s.talks[k]?).map TalkConn.fd = some fd
  | .cached j => (s.cached[j]?).map CachedConn.fd = some fd

def placeOf (s : ConnsSystem) : Holder → Option Addr
  | .idle addr => some addr
  | .talk k => ((s.talks[k]?).bind s.remoteOf).map Remote.addr
  | .cached j => ((s.cached[j]?).bind fun c => c.remote.deref s.mgr.tmpRemotes).map Remote.addr

def custody (s : ConnsSystem) : Custody Holder ℤ Addr where
  holds h fd := 0 < fd ∧ s.Holds fd h
  place := s.placeOf
  origin := s.opened

structure Inv (s : ConnsSystem) : Prop where
  pools : s.mgr.PoolsOk
  custody : s.custody.Sound
  driven : ∀ t ∈ s.talks, t.phase = .driven → 0 < t.fd
  reports : ∀ r ∈ s.reports, ∃ addr, r.peer = some addr ∧ r.hit = some addr

variable {s s' : ConnsSystem}

/-- Every reference in use denotes the same address in both states. -/
def SameRefs (s s' : ConnsSystem) : Prop :=
  ∀ ref ∈ s.liveRefs, SameAddr s.mgr.tmpRemotes s'.mgr.tmpRemotes ref

theorem sameRefs_of_eq (h : s'.mgr.tmpRemotes = s.mgr.tmpRemotes) : SameRefs s s' :=
  fun _ _ => by rw [h]; rfl

theorem kept_idle (hp : s.mgr.Keeps s'.mgr) {addr : Addr} {fd : ℤ}
    (h : s'.custody.holds (.idle addr) fd) (ho : s'.opened fd = s.opened fd) :
    Custody.Kept s.custody s'.custody (.idle addr) fd := by
  obtain ⟨hpos, p', hp', hfd⟩ := h
  exact ⟨⟨hpos, hp.mem hp' hfd⟩, rfl, ho⟩

theorem held_talk (hr : SameRefs s s') {k : ℕ} {fd : ℤ} (ht : s'.talks[k]? = s.talks[k]?)
    (h : s'.custody.holds (.talk k) fd) :
    s.custody.holds (.talk k) fd ∧ s'.placeOf (.talk k) = s.placeOf (.talk k) := by
  obtain ⟨hpos, hfd⟩ := h
  obtain ⟨t, hget, rfl⟩ := Option.map_eq_some_iff.mp hfd
  have hold := ht.symm.trans hget
  refine ⟨⟨hpos, by simp [Holds, hold]⟩, ?_⟩
  simp only [placeOf, hget, hold, Option.bind_some, remoteOf]
  cases href : t.remote with
  | none => rfl
  | some ref =>
    refine hr ref (List.mem_append_left _ (List.mem_filterMap.mpr ⟨t, ?_, href⟩))
    exact List.mem_filter.mpr ⟨List.mem_of_getElem? hold, by simpa using hpos⟩

theorem kept_talk (hr : SameRefs s s') {k : ℕ} {fd : ℤ} (ht : s'.talks[k]? = s.talks[k]?)
    (h : s'.custody.holds (.talk k) fd) (ho : s'.opened fd = s.opened fd) :
    Custody.Kept s.custody s'.custody (.talk k) fd :=
  ⟨(held_talk hr ht h).1, (held_talk hr ht h).2, ho⟩

theorem held_cached (hr : SameRefs s s') {j : ℕ} {fd : ℤ} (hc : s'.cached[j]? = s.cached[j]?)
    (h : s'.custody.holds (.cached j) fd) :
    s.custody.holds (.cached j) fd ∧ s'.placeOf (.cached j) = s.placeOf (.cached j) := by
  obtain ⟨hpos, hfd⟩ := h
  obtain ⟨c, hget, rfl⟩ := Option.map_eq_some_iff.mp hfd
  have hold := hc.symm.trans hget
  refine ⟨⟨hpos, by simp [Holds, hold]⟩, ?_⟩
  simp only [placeOf, hget, hold, Option.bind_some]
  refine hr c.remote (List.mem_append_right _ (List.mem_map_of_mem ?_))
  exact List.mem_filter.mpr ⟨List.mem_of_getElem? hold, by simpa using hpos⟩

theorem kept_cached (hr : SameRefs s s') {j : ℕ} {fd : ℤ} (hc : s'.cached[j]? = s.cached[j]?)
    (h : s'.custody.holds (.cached j) fd) (ho : s'.opened fd = s.opened fd) :
    Custody.Kept s.custody s'.custody (.cached j) fd :=
  ⟨(held_cached hr hc h).1, (held_cached hr hc h).2, ho⟩

theorem holds_talk {k : ℕ} {t : TalkConn} (ht : s.talks[k]? = some t) (hpos : 0 < t.fd) :
    s.custody.holds (.talk k) t.fd := ⟨hpos, by simp [Holds, ht]⟩

theorem holds_cached {j : ℕ} {c : CachedConn} (hc : s.cached[j]? = some c) (hpos : 0 < c.fd) :
    s.custody.holds (.cached j) c.fd := ⟨hpos, by simp [Holds, hc]⟩

theorem ne_talk (hs : s.custody.Sound) {k : ℕ} {t : TalkConn} (ht : s.talks[k]? = some t)
    {h : Holder} (hne : h ≠ .talk k) {fd : ℤ} (hh : s.custody.holds h fd) : fd ≠ t.fd := by
  rintro rfl
  exact hne (hs.exclusive _ _ _ hh (holds_talk ht hh.1))

theorem ne_cached (hs : s.custody.Sound) {j : ℕ} {c : CachedConn} (hc : s.cached[j]? = some c)
    {h : Holder} (hne : h ≠ .cached j) {fd : ℤ} (hh : s.custody.holds h fd) : fd ≠ c.fd := by
  rintro rfl
  exact hne (hs.exclusive _ _ _ hh (holds_cached hc hh.1))

theorem sound_setTalk (hs : s.custody.Sound) (hp : s.mgr.Keeps s'.mgr)
    (htmp : s'.mgr.tmpRemotes = s.mgr.tmpRemotes) {k : ℕ} {t u : TalkConn}
    (ht : s.talks[k]? = some t) (htalks : s'.talks = s.talks.set k u)
    (hcached : s'.cached = s.cached)
    (hu : u.fd ≤ 0 ∧ (∀ fd, fd ≠ t.fd → s'.opened fd = s.opened fd) ∨
      u.fd = t.fd ∧ u.remote = t.remote ∧ s'.opened = s.opened) : s'.custody.Sound := by
  have ho : ∀ fd, fd ≠ t.fd → s'.opened fd = s.opened fd := by
    rcases hu with ⟨-, ho⟩ | ⟨-, -, ho⟩
    · exact ho
    · simp [ho]
  have hrefs := sameRefs_of_eq htmp
  refine hs.keep fun h fd hh => ?_
  cases h with
  | idle addr =>
    have hold : s.custody.holds (.idle addr) fd :=
      ⟨hh.1, by obtain ⟨p', hp', hfd⟩ := hh.2; exact hp.mem hp' hfd⟩
    exact kept_idle hp hh (ho fd (ne_talk hs ht (by simp) hold))
  | cached j =>
    have hold : s.custody.holds (.cached j) fd := ⟨hh.1, by simpa [Holds, hcached] using hh.2⟩
    exact kept_cached hrefs (by rw [hcached]) hh (ho fd (ne_talk hs ht (by simp) hold))
  | talk k' =>
    by_cases hk : k = k'
    · subst hk
      have hlt := (List.getElem?_eq_some_iff.mp ht).1
      have hget : s'.talks[k]? = some u := by rw [htalks, List.getElem?_set_self hlt]
      have hfd : u.fd = fd := by simpa [Holds, hget] using hh.2
      rcases hu with ⟨hneg, -⟩ | ⟨hfd', hrem, hop⟩
      · have := hh.1
        omega
      · refine ⟨⟨hh.1, by simp [Holds, ht, ← hfd', hfd]⟩, ?_, by rw [custody, custody, hop]⟩
        simp [custody, placeOf, hget, ht, remoteOf, hrem, htmp]
    · have hget : s'.talks[k']? = s.talks[k']? := by rw [htalks, List.getElem?_set_ne hk]
      have hold : s.custody.holds (.talk k') fd := ⟨hh.1, by simpa [Holds, hget] using hh.2⟩
      exact kept_talk hrefs hget hh (ho fd (ne_talk hs ht (by simpa using Ne.symm hk) hold))

theorem sound_dropCached (hs : s.custody.Sound) (hp : s.mgr.Keeps s'.mgr)
    (htmp : s'.mgr.tmpRemotes = s.mgr.tmpRemotes) {j : ℕ} {c : CachedConn}
    (hc : s.cached[j]? = some c) (hcached : s'.cached = s.cached.set j { c with fd := 0 })
    (htalks : s'.talks = s.talks) (ho : ∀ fd, fd ≠ c.fd → s'.opened fd = s.opened fd) :
    s'.custody.Sound := by
  have hrefs := sameRefs_of_eq htmp
  refine hs.keep fun h fd hh => ?_
  cases h with
  | idle addr =>
    have hold : s.custody.holds (.idle addr) fd :=
      ⟨hh.1, by obtain ⟨p', hp', hfd⟩ := hh.2; exact hp.mem hp' hfd⟩
    exact kept_idle hp hh (ho fd (ne_cached hs hc (by simp) hold))
  | talk k =>
    have hold : s.custody.holds (.talk k) fd := ⟨hh.1, by simpa [Holds, htalks] using hh.2⟩
    exact kept_talk hrefs (by rw [htalks]) hh (ho fd (ne_cached hs hc (by simp) hold))
  | cached j' =>
    by_cases hj : j = j'
    · subst hj
      have hlt := (List.getElem?_eq_some_iff.mp hc).1
      have hfd : 0 = fd := by simpa [Holds, hcached, List.getElem?_set_self hlt] using hh.2
      have := hh.1
      omega
    · have hget : s'.cached[j']? = s.cached[j']? := by rw [hcached, List.getElem?_set_ne hj]
      have hold : s.custody.holds (.cached j') fd := ⟨hh.1, by simpa [Holds, hget] using hh.2⟩
      exact kept_cached hrefs hget hh (ho fd (ne_cached hs hc (by simpa using Ne.symm hj) hold))

theorem sound_file (hs : s.custody.Sound) {k : ℕ} {t : TalkConn} {ref : RemoteRef}
    (ht : s.talks[k]? = some t) (hpos : 0 < t.fd) (href : t.remote = some ref)
    (hmgr : s'.mgr = s.mgr) (hopened : s'.opened = s.opened)
    (htalks : s'.talks = s.talks.set k { t with fd := 0, phase := .left })
    (hcached : s'.cached = s.cached ++ [⟨t.service, t.fd, ref⟩]) : s'.custody.Sound := by
  have hp : s.mgr.Keeps s'.mgr := by rw [hmgr]; exact .refl _
  have hrefs : SameRefs s s' := sameRefs_of_eq (by rw [hmgr])
  obtain ⟨a, hpl, ho⟩ := hs.agree _ _ (holds_talk ht hpos)
  have hopen : ∀ fd, s'.opened fd = s.opened fd := fun fd => by rw [hopened]
  refine hs.give (.cached s.cached.length) t.fd a (fun h fd hh => ?_) ?_ ?_
  · cases h with
    | idle addr =>
      have hk := kept_idle hp hh (hopen fd)
      exact .inr ⟨ne_talk hs ht (by simp) hk.holds, hk⟩
    | talk k' =>
      by_cases hk : k = k'
      · subst hk
        have hlt := (List.getElem?_eq_some_iff.mp ht).1
        have hfd : 0 = fd := by simpa [Holds, htalks, List.getElem?_set_self hlt] using hh.2
        have := hh.1
        omega
      · have hkept := kept_talk hrefs (by rw [htalks, List.getElem?_set_ne hk]) hh (hopen fd)
        exact .inr ⟨ne_talk hs ht (by simpa using Ne.symm hk) hkept.holds, hkept⟩
    | cached j =>
      by_cases hj : j = s.cached.length
      · subst hj
        have hfd : t.fd = fd := by simpa [Holds, hcached] using hh.2
        exact .inl ⟨rfl, hfd.symm⟩
      · have hk := kept_cached hrefs (by rw [hcached, List.getElem?_append_one hj]) hh (hopen fd)
        exact .inr ⟨ne_talk hs ht (by simp) hk.holds, hk⟩
  · simp only [custody, placeOf, ht, remoteOf, href, Option.bind_some] at hpl
    simpa [custody, placeOf, hcached, hmgr] using hpl
  · exact (hopen _).trans ho

theorem sound_reuse (hs : s.custody.Sound) {j : ℕ} {c : CachedConn} {u : TalkConn}
    (hc : s.cached[j]? = some c) (hpos : 0 < c.fd) (hmgr : s'.mgr = s.mgr)
    (hopened : s'.opened = s.opened) (hcached : s'.cached = s.cached.set j { c with fd := 0 })
    (htalks : s'.talks = s.talks ++ [u]) (hfd : u.fd = c.fd) (href : u.remote = some c.remote) :
    s'.custody.Sound := by
  have hp : s.mgr.Keeps s'.mgr := by rw [hmgr]; exact .refl _
  have hrefs : SameRefs s s' := sameRefs_of_eq (by rw [hmgr])
  obtain ⟨a, hpl, ho⟩ := hs.agree _ _ (holds_cached hc hpos)
  have hopen : ∀ fd, s'.opened fd = s.opened fd := fun fd => by rw [hopened]
  refine hs.give (.talk s.talks.length) c.fd a (fun h fd hh => ?_) ?_ ?_
  · cases h with
    | idle addr =>
      have hk := kept_idle hp hh (hopen fd)
      exact .inr ⟨ne_cached hs hc (by simp) hk.holds, hk⟩
    | talk k =>
      by_cases hk : k = s.talks.length
      · subst hk
        have hfd' : u.fd = fd := by simpa [Holds, htalks] using hh.2
        exact .inl ⟨rfl, hfd'.symm.trans hfd⟩
      · have hkept := kept_talk hrefs (by rw [htalks, List.getElem?_append_one hk]) hh (hopen fd)
        exact .inr ⟨ne_cached hs hc (by simp) hkept.holds, hkept⟩
    | cached j' =>
      by_cases hj : j = j'
      · subst hj
        have hlt := (List.getElem?_eq_some_iff.mp hc).1
        have hfd : 0 = fd := by simpa [Holds, hcached, List.getElem?_set_self hlt] using hh.2
        have := hh.1
        omega
      · have hk := kept_cached hrefs (by rw [hcached, List.getElem?_set_ne hj]) hh (hopen fd)
        exact .inr ⟨ne_cached hs hc (by simpa using Ne.symm hj) hk.holds, hk⟩
  · simp only [custody, placeOf, hc, Option.bind_some] at hpl
    simpa [custody, placeOf, htalks, remoteOf, href, hmgr] using hpl
  · exact (hopen _).trans ho

theorem sound_put (hs : s.custody.Sound) {j : ℕ} {c : CachedConn} {remote : Remote}
    {p p' : PoolConnsPerRemote} (hc : s.cached[j]? = some c) (hpos : 0 < c.fd)
    (href : c.remote.deref s.mgr.tmpRemotes = some remote)
    (hp : s.mgr.conns remote.addr = some p) (hfds : p'.fds = c.fd :: p.fds)
    (hmgr : s'.mgr = s.mgr.setPool remote.addr p') (hopened : s'.opened = s.opened)
    (hcached : s'.cached = s.cached.set j { c with fd := 0 }) (htalks : s'.talks = s.talks) :
    s'.custody.Sound := by
  have hopen : ∀ fd, s'.opened fd = s.opened fd := fun fd => by rw [hopened]
  have hrefs : SameRefs s s' := sameRefs_of_eq (by rw [hmgr]; rfl)
  obtain ⟨a, hpl, ho⟩ := hs.agree _ _ (holds_cached hc hpos)
  obtain rfl : remote.addr = a := by simpa [custody, placeOf, hc, href] using hpl
  refine hs.give (.idle remote.addr) c.fd remote.addr (fun h fd hh => ?_) rfl
    ((hopen _).trans ho)
  cases h with
  | idle addr =>
    obtain ⟨hfd, q, hq, hmem⟩ := hh
    rw [hmgr] at hq
    simp only [ConnsMgr.setPool] at hq
    have hold : ∀ q, s.mgr.conns addr = some q → fd ∈ q.fds →
        fd ≠ c.fd ∧ Custody.Kept s.custody s'.custody (.idle addr) fd := fun q hq hmem =>
      ⟨ne_cached hs hc (h := .idle addr) (by simp) ⟨hfd, q, hq, hmem⟩,
        ⟨hfd, q, hq, hmem⟩, rfl, hopen fd⟩
    split_ifs at hq with ha
    · obtain rfl := Option.some.inj hq
      rw [hfds] at hmem
      rcases List.mem_cons.mp hmem with rfl | hmem
      · exact .inl ⟨by rw [ha], rfl⟩
      · exact .inr (hold p (by rw [ha]; exact hp) hmem)
    · exact .inr (hold q hq hmem)
  | talk k =>
    have hk := kept_talk hrefs (by rw [htalks]) hh (hopen fd)
    exact .inr ⟨ne_cached hs hc (by simp) hk.holds, hk⟩
  | cached j' =>
    by_cases hj : j = j'
    · subst hj
      have hlt := (List.getElem?_eq_some_iff.mp hc).1
      have hfd : 0 = fd := by simpa [Holds, hcached, List.getElem?_set_self hlt] using hh.2
      have := hh.1
      omega
    · have hk := kept_cached hrefs (by rw [hcached, List.getElem?_set_ne hj]) hh
        (hopen fd)
      exact .inr ⟨ne_cached hs hc (by simpa using Ne.symm hj) hk.holds, hk⟩

theorem getFd_others (hs : s.custody.Sound) {k : ℕ} {t u : TalkConn} {ref : RemoteRef}
    {r : PoolGet} {addr : Addr} {popped : Option ℤ}
    (hspec : ConnsMgr.GetFdSpec s.mgr t.service t.failRemotes ref r s'.mgr addr popped)
    (hrefs : SameRefs s s') (htalks : s'.talks = s.talks.set k u) (hcached : s'.cached = s.cached)
    {h : Holder} (hk : h ≠ .talk k) {fd : ℤ} (hh : s'.custody.holds h fd) :
    s.custody.holds h fd ∧ s'.placeOf h = s.placeOf h ∧ popped ≠ some fd := by
  have hpop : ∀ {h : Holder}, h ≠ .idle addr → s.custody.holds h fd → popped ≠ some fd := by
    intro h hne hold he
    obtain ⟨p, hp, hmem⟩ := hspec.taken fd he
    exact hne (hs.exclusive _ _ _ hold ⟨hold.1, p, hp, hmem⟩)
  cases h with
  | idle a =>
    obtain ⟨hpos, p', hp', hfd⟩ := hh
    obtain ⟨hold, hne⟩ := hspec.idle a p' hp' fd hfd
    refine ⟨⟨hpos, hold⟩, rfl, ?_⟩
    by_cases ha : a = addr
    · exact hne ha
    · exact hpop (h := .idle a) (by simpa using ha) ⟨hpos, hold⟩
  | talk k' =>
    have hget : s'.talks[k']? = s.talks[k']? := by
      rw [htalks, List.getElem?_set_ne (by rintro rfl; exact hk rfl)]
    obtain ⟨hold, hplace⟩ := held_talk hrefs hget hh
    exact ⟨hold, hplace, hpop (by simp) hold⟩
  | cached j =>
    obtain ⟨hold, hplace⟩ := held_cached hrefs (by rw [hcached]) hh
    exact ⟨hold, hplace, hpop (by simp) hold⟩

theorem sound_getFd (hs : s.custody.Sound) {k : ℕ} {t : TalkConn} {ref : RemoteRef} {r : PoolGet}
    {addr : Addr} {popped : Option ℤ}
    (hspec : ConnsMgr.GetFdSpec s.mgr t.service t.failRemotes ref r s'.mgr addr popped)
    (hrefs : SameRefs s s') (ht : s.talks[k]? = some t)
    (hfresh : r.connected.isSome → 0 < r.fd → close s.opened r.closed r.fd = none)
    (hopened : s'.opened = openedBy s.opened r)
    (htalks : s'.talks = s.talks.set k (t.connect ref r.fd)) (hcached : s'.cached = s.cached) :
    s'.custody.Sound := by
  have hget : s'.talks[k]? = some (t.connect ref r.fd) := by
    rw [htalks, List.getElem?_set_self (List.getElem?_eq_some_iff.mp ht).1]
  -- what the others hold was neither taken nor closed, and is not the new descriptor
  have hkept : ∀ h fd, h ≠ .talk k → s'.custody.holds h fd →
      (0 < r.fd → fd ≠ r.fd) ∧ Custody.Kept s.custody s'.custody h fd := by
    intro h fd hk hh
    obtain ⟨hold, hplace, hpop⟩ := getFd_others hs hspec hrefs htalks hcached hk hh
    have hclose : close s.opened r.closed fd = s.opened fd := by
      refine if_neg fun he => ?_
      rcases hspec.result with ⟨-, hc, -⟩ | ⟨-, hc⟩
      · simp [hc] at he
      · exact hpop (hc ▸ he)
    have hne : 0 < r.fd → fd ≠ r.fd := by
      rintro hpos rfl
      rcases hspec.result with ⟨-, -, hp⟩ | ⟨hc, -⟩
      · exact hpop hp
      · have hnone := hfresh (by rw [hc]; rfl) hpos
        obtain ⟨a, -, ho⟩ := hs.agree _ _ hold
        rw [hclose] at hnone
        exact nomatch hnone.symm.trans ho
    refine ⟨hne, hold, hplace, ?_⟩
    show s'.opened fd = s.opened fd
    rw [hopened, openedBy, if_neg fun hc => hne hc.2.1 hc.2.2, hclose]
  by_cases hpos : 0 < r.fd
  · have hconn : t.connect ref r.fd =
        { t with remote := some ref, fd := r.fd, phase := .driven } := if_pos hpos
    refine hs.give (.talk k) r.fd addr (fun h fd hh => ?_) ?_ ?_
    · by_cases hk : h = .talk k
      · subst hk
        have hfd : r.fd = fd := by simpa [Holds, hget, hconn] using hh.2
        exact .inl ⟨rfl, hfd.symm⟩
      · exact .inr ⟨(hkept h fd hk hh).1 hpos, (hkept h fd hk hh).2⟩
    · simpa [custody, placeOf, hget, hconn, remoteOf] using hspec.denotes
    · show s'.opened r.fd = some addr
      rw [hopened, openedBy]
      rcases hspec.result with ⟨hc, hcl, hp⟩ | ⟨hc, -⟩
      · obtain ⟨p, hconns, hmem⟩ := hspec.taken r.fd hp
        obtain ⟨a, hpl, ho⟩ := hs.agree (.idle addr) r.fd ⟨hpos, p, hconns, hmem⟩
        rw [if_neg (by simp [hc]), hcl, ← show some addr = some a from hpl] at *
        exact ho
      · rw [if_pos ⟨by rw [hc]; rfl, hpos, rfl⟩, hc]
  · have hconn : t.connect ref r.fd =
        { t with remote := some ref, fd := -1, phase := .done } := if_neg hpos
    refine hs.keep fun h fd hh => ?_
    by_cases hk : h = .talk k
    · subst hk
      have hfd : -1 = fd := by simpa [Holds, hget, hconn] using hh.2
      have := hh.1
      omega
    · exact (hkept h fd hk hh).2

theorem driven_set {k : ℕ} {u : TalkConn} (h : ∀ t ∈ s.talks, t.phase = .driven → 0 < t.fd)
    (hu : u.phase = .driven → 0 < u.fd) :
    ∀ t ∈ s.talks.set k u, t.phase = .driven → 0 < t.fd := by
  intro t ht
  rcases List.mem_or_eq_of_mem_set ht with ht | rfl
  · exact h t ht
  · exact hu

theorem talk_of_phase {k : ℕ} {phase : TalkPhase} (h : s.InPhase k phase) :
    ∃ t, s.talks[k]? = some t ∧ t.phase = phase := Option.map_eq_some_iff.mp h

theorem cached_of_inCache {j : ℕ} (h : s.InCache j) :
    ∃ c, s.cached[j]? = some c ∧ 0 < c.fd := by
  unfold InCache at h
  cases hc : s.cached[j]? with
  | none => simp [hc] at h
  | some c => exact ⟨c, rfl, by simpa [hc] using h⟩

theorem close_of_ne {opened : ℤ → Option Addr} {fd x : ℤ} (h : x ≠ fd) :
    close opened (some fd) x = opened x := if_neg fun he => h (Option.some.inj he).symm

theorem connect_driven (t : TalkConn) (ref : RemoteRef) (fd : ℤ) :
    (t.connect ref fd).phase = .driven → 0 < (t.connect ref fd).fd := by
  unfold TalkConn.connect
  split_ifs with hpos
  · exact fun _ => hpos
  · simp

theorem inv_getFd (h : s.Inv) {k rand : ℕ} {env : ConnEnv} (hl : s.Enabled (.getFd k rand env))
    (hrefs : s.RefsKept (.getFd k rand env)) : (s.next (.getFd k rand env)).Inv := by
  obtain ⟨-, hconn⟩ := hl
  cases hg : s.getFdFor k rand env with
  | none => simp [hg, Connects] at hconn
  | some q =>
    obtain ⟨t, ref, r, m'⟩ := q
    rw [hg] at hconn
    obtain ⟨t', ht, hg'⟩ := Option.bind_eq_some_iff.mp hg
    obtain ⟨q, hgetFd, he⟩ := Option.map_eq_some_iff.mp hg'
    simp only [Prod.mk.injEq] at he
    obtain ⟨rfl, rfl⟩ := he
    obtain ⟨addr, popped, hspec⟩ := ConnsMgr.getFd_spec h.pools hgetFd
    have hsame : ∀ x ∈ s.liveRefs, SameAddr s.mgr.tmpRemotes m'.tmpRemotes x := by
      rcases hspec.tmp with htmp | ⟨hw, hu, htmp⟩
      · exact fun _ _ => by rw [htmp]; rfl
      · rw [htmp]
        exact hrefs t' ht hw hu
    simp only [next, hg]
    exact {
      pools := hspec.ok
      custody := sound_getFd h.custody hspec hsame ht hconn rfl rfl rfl
      driven := driven_set h.driven (connect_driven t' ref r.fd)
      reports := h.reports }

theorem finish_keeps (s : ConnsSystem) (hit : Option Remote) (succ : Bool) :
    s.mgr.Keeps (hit.elim s.mgr fun remote => s.mgr.reportStatus remote succ) ∧
      (hit.elim s.mgr fun remote => s.mgr.reportStatus remote succ).tmpRemotes =
        s.mgr.tmpRemotes := by
  cases hit with
  | none => exact ⟨.refl _, rfl⟩
  | some remote => exact ConnsMgr.reportStatus_keeps s.mgr remote succ

theorem inv_finish (h : s.Inv) {k : ℕ} {succ : Bool} (hl : s.Enabled (.finish k succ)) :
    (s.next (.finish k succ)).Inv := by
  obtain ⟨t, ht, hphase⟩ := talk_of_phase hl
  have hpos := h.driven t (List.mem_of_getElem? ht) hphase
  obtain ⟨hk, htmp⟩ := finish_keeps s (s.remoteOf t) succ
  obtain ⟨a, hpl, ho⟩ := h.custody.agree _ _ (holds_talk ht hpos)
  have hhit : (s.remoteOf t).map Remote.addr = some a := by simpa [custody, placeOf, ht] using hpl
  simp only [next, ht]
  refine ⟨hk.ok h.pools, sound_setTalk h.custody hk htmp ht rfl rfl ?_, driven_set h.driven ?_, ?_⟩
  · cases succ with
    | true => exact .inr ⟨rfl, rfl, rfl⟩
    | false =>
      refine .inl ⟨?_, fun fd hne => close_of_ne hne⟩
      simp only [TalkConn.finish, Bool.false_eq_true, ↓reduceIte]
      split_ifs <;> simp
  · unfold TalkConn.finish
    dsimp only
    split_ifs <;> simp
  · intro r hr
    rcases List.mem_append.mp hr with hr | hr
    · exact h.reports r hr
    · rw [List.mem_singleton.mp hr]
      exact ⟨a, ho, hhit⟩

theorem inv_freeFd (h : s.Inv) {j : ℕ} {now : ℤ} (hl : s.Enabled (.freeFd j now)) :
    (s.next (.freeFd j now)).Inv := by
  obtain ⟨c, hc, hpos⟩ := cached_of_inCache hl
  obtain ⟨a, hpl, -⟩ := h.custody.agree _ _ (holds_cached hc hpos)
  obtain ⟨remote, href, -⟩ : ∃ remote, c.remote.deref s.mgr.tmpRemotes = some remote ∧
      remote.addr = a := by
    simpa [custody, placeOf, hc] using hpl
  obtain ⟨htmp, hres⟩ := s.mgr.freeFd_spec remote c.fd now
  simp only [next, hc, href, Option.elim_some]
  rcases hres with ⟨hclosed, hk⟩ | ⟨hclosed, p, p', hp, hremote, hfds, hmgr⟩
  · refine ⟨hk.ok h.pools, sound_dropCached h.custody hk htmp hc rfl rfl fun fd hne => ?_,
      h.driven, h.reports⟩
    rw [hclosed]
    exact close_of_ne hne
  · have hsound : (custody ⟨s.mgr.setPool remote.addr p', s.opened, s.talks,
        s.cached.set j { c with fd := 0 }, s.reports⟩).Sound :=
      sound_put h.custody hc hpos href hp hfds rfl rfl rfl rfl
    have hopened : close s.opened none = s.opened := funext fun fd => if_neg (by simp)
    rw [hclosed, hmgr, hopened]
    refine ⟨fun a q hq => ?_, hsound, h.driven, h.reports⟩
    simp only [ConnsMgr.setPool] at hq
    split_ifs at hq with ha
    · obtain rfl := Option.some.inj hq
      obtain ⟨haddr, hnodup, hall⟩ := h.pools _ p hp
      have hnot : c.fd ∉ p.fds := fun hmem =>
        ne_cached h.custody hc (h := .idle remote.addr) (by simp) ⟨hpos, p, hp, hmem⟩ rfl
      rw [hremote, hfds, ha]
      exact ⟨haddr, List.nodup_cons.mpr ⟨hnot, hnodup⟩, List.forall_mem_cons.mpr ⟨hpos, hall⟩⟩
    · exact h.pools a q hq

theorem inv_assign (h : s.Inv) (service : Service) : (s.next (.assign service)).Inv := by
  refine ⟨h.pools, h.custody.keep fun x fd hh => ?_, ?_, h.reports⟩
  · have hrefs : SameRefs s (s.next (.assign service)) := sameRefs_of_eq rfl
    have hp : s.mgr.Keeps (s.next (.assign service)).mgr := ConnsMgr.Keeps.refl s.mgr
    cases x with
    | idle addr => exact kept_idle hp hh rfl
    | cached j => exact kept_cached hrefs rfl hh rfl
    | talk k =>
      by_cases hk : k = s.talks.length
      · subst hk
        have hfd : 0 = fd := by simpa [Holds, next] using hh.2
        have := hh.1
        omega
      · exact kept_talk hrefs (List.getElem?_append_one hk) hh rfl
  · intro t ht
    rcases List.mem_append.mp ht with ht | ht
    · exact h.driven t ht
    · rw [List.mem_singleton.mp ht]
      simp

theorem inv_file (h : s.Inv) {k : ℕ} (hl : s.Enabled (.file k)) : (s.next (.file k)).Inv := by
  obtain ⟨hphase, hfd⟩ := hl
  obtain ⟨t, ht, -⟩ := talk_of_phase hphase
  have hpos : 0 < t.fd := by simpa [ht] using hfd
  obtain ⟨a, hpl, -⟩ := h.custody.agree _ _ (holds_talk ht hpos)
  cases href : t.remote with
  | none => simp [custody, placeOf, ht, remoteOf, href] at hpl
  | some ref =>
    simp only [next, ht]
    exact ⟨h.pools, sound_file h.custody ht hpos href rfl rfl rfl (by simp [href]),
      driven_set h.driven (by simp), h.reports⟩

theorem inv_next {l : Label} (h : s.Inv) (hl : s.Enabled l) (hrefs : s.RefsKept l) :
    (s.next l).Inv := by
  cases l with
  | assign service => exact inv_assign h service
  | getFd k rand env => exact inv_getFd h hl hrefs
  | finish k succ => exact inv_finish h hl
  | file k => exact inv_file h hl
  | freeFd j now => exact inv_freeFd h hl
  | abort k closes =>
    obtain ⟨t, ht, -⟩ := talk_of_phase hl
    simp only [next, ht]
    cases closes with
    | true =>
      exact ⟨h.pools, sound_setTalk h.custody (.refl _) rfl ht rfl rfl
        (.inl ⟨by simp, fun fd hne => close_of_ne hne⟩), driven_set h.driven (by simp), h.reports⟩
    | false =>
      exact ⟨h.pools, sound_setTalk h.custody (.refl _) rfl ht rfl rfl (.inr ⟨rfl, rfl, rfl⟩),
        driven_set h.driven (by simp), h.reports⟩
  | leave k =>
    obtain ⟨t, ht, -⟩ := talk_of_phase hl
    simp only [next, ht]
    exact ⟨h.pools, sound_setTalk h.custody (.refl _) rfl ht rfl rfl
      (.inl ⟨le_rfl, fun fd _ => rfl⟩), driven_set h.driven (by simp), h.reports⟩
  | reuse j =>
    obtain ⟨c, hc, hpos⟩ := cached_of_inCache hl
    simp only [next, hc]
    refine ⟨h.pools, sound_reuse h.custody hc hpos rfl rfl rfl rfl rfl rfl, fun t ht => ?_,
      h.reports⟩
    rcases List.mem_append.mp ht with ht | ht
    · exact h.driven t ht
    · rw [List.mem_singleton.mp ht]
      exact fun _ => hpos
  | lose j =>
    obtain ⟨c, hc, -⟩ := cached_of_inCache hl
    simp only [next, hc]
    exact ⟨h.pools, sound_dropCached h.custody (.refl _) rfl hc rfl rfl fun _ _ => rfl, h.driven,
      h.reports⟩
  | configRemotes remotes =>
    obtain ⟨hk, htmp⟩ := s.mgr.configRemotes_keeps remotes
    have hrefs' : SameRefs s (s.next (.configRemotes remotes)) := sameRefs_of_eq htmp
    refine ⟨hk.ok h.pools, h.custody.keep fun x fd hh => ?_, h.driven, h.reports⟩
    cases x with
    | idle addr => exact kept_idle hk hh rfl
    | talk k => exact kept_talk hrefs' rfl hh rfl
    | cached j => exact kept_cached hrefs' rfl hh rfl

theorem inv_init (longConnKeepaliveSec : ℤ) : (init longConnKeepaliveSec).Inv where
  pools := by simp [ConnsMgr.PoolsOk, init, ConnsMgr.new]
  custody := by
    have hnone : ∀ h fd, ¬ (init longConnKeepaliveSec).custody.holds h fd := by
      rintro (addr | k | j) fd ⟨-, hh⟩ <;> simp [Holds, init, ConnsMgr.new] at hh
    exact ⟨fun r h h' hr => absurd hr (hnone h r), fun h r hr => absurd hr (hnone h r)⟩
  driven := by simp [init]
  reports := by simp [init]

/-- Idle descriptors are connected to the address of their pool and reports hit the remote of
their talk, as long as no refill of `tmp_remotes_` changes what a reference in use denotes. -/
theorem refs_kept_straight (longConnKeepaliveSec : ℤ) (ls : List Label)
    (hrun : refsKept.Admits (init longConnKeepaliveSec) ls) :
    (machine.exec (init longConnKeepaliveSec) ls).Straight := by
  have h := refsKept.invariant (I := Inv) (fun _ _ h hl => inv_next h hl.1 hl.2)
    (inv_init longConnKeepaliveSec) hrun
  refine ⟨fun addr p hp fd hfd => ?_, h.reports⟩
  obtain ⟨a, hpl, ho⟩ :=
    h.custody.agree (.idle addr) fd ⟨(h.pools addr p hp).2.2 fd hfd, p, hp, hfd⟩
  rw [show some addr = some a from hpl]
  exact ho

def remoteAt (n : ℕ) : Remote := ⟨⟨n, 80⟩, 1, 4, 50, 50, 50⟩

def serviceAt (n : ℕ) : Service := ⟨n, "svc", .kRapid, .kWeight, [remoteAt n], 1, 0⟩

def connects (fd : ℤ) : ConnEnv := ⟨true, (fd, true)⟩

def unhealthyRun : List Label :=
  [.configRemotes [remoteAt 1, remoteAt 2, remoteAt 3],
    .assign (serviceAt 3), .getFd 0 0 (connects 3), .finish 0 false,
    .assign (serviceAt 1), .getFd 1 0 (connects 4)]

theorem refs_kept_straight_unhealthyRun :
    let s := machine.exec (init 10) (unhealthyRun ++ [.finish 1 true, .file 1, .freeFd 0 0])
    ((s.mgr.conns ⟨1, 80⟩).map PoolConnsPerRemote.fds) = some [4] ∧ s.Straight :=
  ⟨by decide, refs_kept_straight 10 _ (by decide)⟩

/-- A talk to remote 2 refills the scratch vector while the talk to remote 1 is served. -/
def mixedRefsRun : List Label :=
  unhealthyRun ++ [.assign (serviceAt 2), .getFd 2 0 (connects 5), .finish 1 true, .file 1,
    .freeFd 0 0]

/-- The connection to remote 1 ends up among the idle ones of remote 2. -/
theorem mixedRefs_not_straight :
    ¬ ∀ (longConnKeepaliveSec : ℤ) (ls : List Label),
      machine.Admits (init longConnKeepaliveSec) ls →
        (machine.exec (init longConnKeepaliveSec) ls).Straight := by
  intro h
  obtain ⟨hidle, -⟩ := h 10 mixedRefsRun (by decide)
  have hidle : (machine.exec (init 10) mixedRefsRun).opened 4 = some ⟨2, 80⟩ :=
    hidle ⟨2, 80⟩ _ rfl 4 (by decide)
  exact absurd hidle (by decide)

end Magneto.ConnsSystem
