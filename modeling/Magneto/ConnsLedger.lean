import Magneto.ConnsCalls
import Magneto.Lib.Ledger

/-!
# Where the connections of a manager are

The callers of a manager own descriptors: those it gave them, and those they
opened themselves. Descriptor numbers are used again, so a connection is a
number and which of its openings it is. `ConfigRemotes` deletes the pools of the
remotes it does not know without closing their idle descriptors; every other
call passes a connection on or closes it.
-/

namespace Magneto

namespace ConnsMgr

def idleAt (m : ConnsMgr) (a : Addr) : List ℤ :=
  ((m.conns a).map PoolConnsPerRemote.fds).getD []

variable {m m' : ConnsMgr}

theorem idleAt_setPool (m : ConnsMgr) (a : Addr) (p : PoolConnsPerRemote) :
    (m.setPool a p).idleAt a = p.fds ∧ ∀ b, b ≠ a → (m.setPool a p).idleAt b = m.idleAt b := by
  refine ⟨by simp [idleAt, setPool], fun b hb => by simp [idleAt, setPool, hb]⟩

theorem fds_pool (m : ConnsMgr) (remote : Remote) : (m.pool remote).fds = m.idleAt remote.addr := by
  unfold pool idleAt
  cases m.conns remote.addr <;> rfl

theorem idleAt_setPool_same {remote : Remote} {p : PoolConnsPerRemote}
    (h : p.fds = (m.pool remote).fds) (a : Addr) :
    (m.setPool remote.addr p).idleAt a = m.idleAt a := by
  obtain ⟨hself, hother⟩ := idleAt_setPool m remote.addr p
  by_cases ha : a = remote.addr
  · rw [ha, hself, h, fds_pool]
  · exact hother a ha

theorem idleAt_reportStatus (m : ConnsMgr) (remote : Remote) (status : Bool) (a : Addr) :
    (m.reportStatus remote status).idleAt a = m.idleAt a := by
  unfold reportStatus
  cases hc : m.conns remote.addr with
  | none => rfl
  | some p =>
    have hp : m.pool remote = p := by simp [pool, hc]
    have hset : (m.setPool remote.addr (p.reportStatus status)).idleAt a = m.idleAt a :=
      idleAt_setPool_same (by rw [hp]; rfl) a
    dsimp only
    split_ifs <;> exact hset

theorem idleAt_addRemotes (m : ConnsMgr) (remotes : List Remote) (a : Addr) :
    (m.addRemotes remotes).idleAt a = m.idleAt a := by
  unfold addRemotes
  induction remotes generalizing m with
  | nil => rfl
  | cons r remotes ih =>
    have hr : (m.setPool r.addr ((m.pool r).setNumLongConnsPerRemote r.longConns)).idleAt a =
        m.idleAt a := by
      apply idleAt_setPool_same
      rfl
    exact (ih _).trans hr

theorem idleAt_configRemotes (m : ConnsMgr) (remotes : List Remote) (a : Addr) :
    (m.configRemotes remotes).idleAt a = if ∃ r ∈ remotes, r.addr = a then m.idleAt a else [] := by
  rw [idleAt, configRemotes_conns]
  split_ifs
  · exact idleAt_addRemotes m remotes a
  · rfl

theorem idleAt_freeFd (m : ConnsMgr) (remote : Remote) (fd now : ℤ) :
    (m.freeFd remote fd now).1 = some fd ∧
        (∀ a, (m.freeFd remote fd now).2.idleAt a = m.idleAt a) ∨
      (m.freeFd remote fd now).1 = none ∧
        (m.freeFd remote fd now).2.idleAt remote.addr = fd :: m.idleAt remote.addr ∧
        ∀ a, a ≠ remote.addr → (m.freeFd remote fd now).2.idleAt a = m.idleAt a := by
  unfold freeFd
  cases hc : m.conns remote.addr with
  | none => exact .inl ⟨rfl, fun _ => rfl⟩
  | some p =>
    have hp : m.pool remote = p := by simp [pool, hc]
    have hfds : p.fds = m.idleAt remote.addr := by rw [← hp, fds_pool]
    dsimp only
    split_ifs
    · have hput : ∀ q : PoolConnsPerRemote, q.fds = fd :: p.fds →
          (m.setPool remote.addr q).idleAt remote.addr = fd :: m.idleAt remote.addr ∧
          ∀ a, a ≠ remote.addr → (m.setPool remote.addr q).idleAt a = m.idleAt a := by
        intro q hq
        obtain ⟨hself, hother⟩ := idleAt_setPool m remote.addr q
        exact ⟨by rw [hself, hq, hfds], hother⟩
      have hcases := p.put_cases fd now m.longConnKeepaliveSec
      generalize p.put fd now m.longConnKeepaliveSec = r at hcases ⊢
      cases hcases with
      | full | retired => exact .inl ⟨rfl, idleAt_setPool_same (by rw [hp])⟩
      | kept | marked => exact .inr ⟨rfl, hput _ rfl⟩
    · exact .inl ⟨rfl, fun _ => rfl⟩

theorem idleAt_getFd {service : Service} {failRemotes : List Remote} {rand : ℕ} {env : ConnEnv}
    {ref : RemoteRef} {r : PoolGet} (hpos : ∀ a, ∀ fd ∈ m.idleAt a, 0 < fd)
    (hg : m.getFd service failRemotes rand env = some (ref, r, m')) :
    ∃ addr popped, m.idleAt addr = popped.toList ++ m'.idleAt addr ∧
      (∀ a, a ≠ addr → m'.idleAt a = m.idleAt a) ∧
      (r.connected = none ∧ r.closed = none ∧ popped = some r.fd ∨
        r.connected.isSome ∧ r.closed = popped) := by
  obtain ⟨q, -, hconns, remote, -, rfl, rfl⟩ := getFd_cases hg
  have hidle : ∀ a, q.idleAt a = m.idleAt a := fun a => by rw [idleAt, hconns, idleAt]
  have hfds : (q.pool remote).fds = m.idleAt remote.addr := by rw [fds_pool, hidle]
  obtain ⟨-, popped, hpop, hres⟩ :=
    get_spec (p := q.pool remote) (fun fd hfd => hpos _ fd (hfds ▸ hfd)) env
  obtain ⟨hself, hother⟩ := idleAt_setPool q remote.addr ((q.pool remote).get env).pool
  refine ⟨remote.addr, popped, ?_, fun a ha => (hother a ha).trans (hidle a), ?_⟩
  · rw [← hfds, hpop, hself]
  · rcases hres with hkept | ⟨hconn, hclosed⟩
    · exact .inl hkept
    · exact .inr ⟨by rw [hconn]; rfl, hclosed⟩

end ConnsMgr

abbrev Conn := ℤ × ℕ

/-- A manager with its callers: the openings so far, the descriptors that callers
own, and the connections that were closed and that were passed to `FreeFd`. -/
structure ConnsLedger where
  mgr : ConnsMgr
  opens : ℤ → ℕ
  owned : List ℤ
  closed : List Conn
  freed : List Conn

namespace ConnsLedger

def init (longConnKeepaliveSec : ℤ) : ConnsLedger :=
  ⟨.new longConnKeepaliveSec, fun _ => 0, [], [], []⟩

def conn (s : ConnsLedger) (fd : ℤ) : Conn := (fd, s.opens fd)

def closeFd (s : ConnsLedger) (fd : ℤ) : ConnsLedger :=
  { s with closed := s.closed ++ [s.conn fd] }

def openFd (s : ConnsLedger) (fd : ℤ) : ConnsLedger :=
  { s with opens := Function.update s.opens fd (s.opens fd + 1) }

def takeFd (s : ConnsLedger) (fd : ℤ) : ConnsLedger :=
  { s with owned := s.owned.erase fd, freed := s.freed ++ [s.conn fd] }

def giveFd (s : ConnsLedger) (fd : ℤ) : ConnsLedger := { s with owned := fd :: s.owned }

def apply (s : ConnsLedger) (e : ConnsMgr.Effect) (mgr : ConnsMgr) : ConnsLedger :=
  let s := { s with mgr := mgr }
  let s := e.taken.elim s s.takeFd
  let s := e.closed.elim s s.closeFd
  let s := e.opened.elim s s.openFd
  e.given.elim s s.giveFd

inductive Label
  | call (c : ConnsMgr.Call)
  | connect (fd : ℤ)
  | close (fd : ℤ)
  deriving DecidableEq, Repr

def next (s : ConnsLedger) : Label → ConnsLedger
  | .call c => (s.mgr.call c).elim s fun r => s.apply r.1 r.2
  | .connect fd => (s.openFd fd).giveFd fd
  | .close fd => { s with owned := s.owned.erase fd }.closeFd fd

def IsOpen (s : ConnsLedger) (fd : ℤ) : Prop := s.opens fd ≠ 0 ∧ s.conn fd ∉ s.closed

/-- `FreeFd` is called by the owner, and the system never gives a number that is open. -/
def Permits (s : ConnsLedger) (e : ConnsMgr.Effect) : Prop :=
  (∀ fd ∈ e.taken, fd ∈ s.owned) ∧ ∀ fd ∈ e.opened, ¬ (e.closed.elim s s.closeFd).IsOpen fd

def Enabled (s : ConnsLedger) : Label → Prop
  | .call c => s.mgr.Callable c ∧ ∀ r ∈ s.mgr.call c, s.Permits r.1
  | .connect fd => 0 < fd ∧ ¬ s.IsOpen fd
  | .close fd => fd ∈ s.owned

def machine : Machine ConnsLedger Label where
  enabled := Enabled
  next := next

/-- `ConfigRemotes` deletes no pool that holds idle descriptors. -/
def PoolsKept (s : ConnsLedger) : Label → Prop
  | .call (.configRemotes remotes) =>
    ∀ a, (∀ r ∈ remotes, r.addr ≠ a) → s.mgr.idleAt a = []
  | _ => True

def poolsKept : Machine ConnsLedger Label := machine.guarded PoolsKept

def Idle (s : ConnsLedger) (c : Conn) : Prop := s.opens c.1 = c.2 ∧ ∃ a, c.1 ∈ s.mgr.idleAt a

def Out (s : ConnsLedger) (c : Conn) : Prop := s.opens c.1 = c.2 ∧ c.1 ∈ s.owned

inductive Settled (s : ConnsLedger) (c : Conn) : Prop
  | stored (a : Addr) (hlast : s.opens c.1 = c.2) (hone : (s.mgr.idleAt a).count c.1 = 1)
      (honly : ∀ b, c.1 ∈ s.mgr.idleAt b → b = a) (hout : ¬ s.Out c) (hclosed : c ∉ s.closed)
  | out (hout : s.Out c) (hidle : ¬ s.Idle c) (hclosed : c ∉ s.closed)
  | closed (hclosed : s.closed.count c = 1) (hout : ¬ s.Out c) (hidle : ¬ s.Idle c)

def book (s : ConnsLedger) : Ledger (Option Addr) ℤ where
  held h := h.elim s.owned s.mgr.idleAt
  opens := s.opens
  closed := s.closed

structure Inv (s : ConnsLedger) : Prop where
  sound : s.book.Sound none
  pos : ∀ h, ∀ fd ∈ s.book.held h, 0 < fd
  freed : ∀ c ∈ s.freed, 1 ≤ c.2 ∧ c.2 ≤ s.opens c.1

variable {s s' : ConnsLedger}

theorem Inv.settled (h : s.Inv) {c : Conn} (h1 : 1 ≤ c.2) (hn : c.2 ≤ s.opens c.1) :
    s.Settled c := by
  rcases h.sound.settled h1 hn with ⟨hlast, hclosed, h', hone, honly⟩ | ⟨hclosed, hnot⟩
  · have hmem := List.count_pos_iff.mp (by rw [hone]; exact Nat.one_pos)
    cases h' with
    | none =>
      refine .out ⟨hlast, hmem⟩ ?_ hclosed
      rintro ⟨-, a, ha⟩
      cases honly (some a) ha
    | some a =>
      refine .stored a hlast hone (fun b hb => Option.some.inj (honly (some b) hb)) ?_ hclosed
      rintro ⟨-, hout⟩
      cases honly none hout
  · refine .closed hclosed ?_ ?_
    · rintro ⟨hlast, hout⟩
      exact hnot ⟨hlast, none, hout⟩
    · rintro ⟨hlast, a, ha⟩
      exact hnot ⟨hlast, some a, ha⟩

theorem Inv.take (h : s.Inv) {fd : ℤ} (hown : fd ∈ s.owned) :
    ({ s with owned := s.owned.erase fd } : ConnsLedger).book.Sound (some fd) := by
  refine h.sound.take (h := none) (List.perm_cons_erase hown) (fun h' hne => ?_) rfl rfl
  cases h' with
  | none => exact absurd rfl hne
  | some a => rfl

theorem pos_erase (h : s.Inv) (fd : ℤ) :
    ∀ h', ∀ x ∈ ({ s with owned := s.owned.erase fd } : ConnsLedger).book.held h', 0 < x := by
  intro h' x hx
  cases h' with
  | none => exact h.pos none x (List.mem_of_mem_erase hx)
  | some a => exact h.pos (some a) x hx

theorem inv_close (h : s.Inv) {fd : ℤ} (hown : fd ∈ s.owned) : (s.next (.close fd)).Inv :=
  ⟨(h.take hown).close rfl rfl rfl, pos_erase h fd, h.freed⟩

theorem inv_connect (h : s.Inv) {fd : ℤ} (hpos : 0 < fd) (hnew : ¬ s.IsOpen fd) :
    ((s.openFd fd).giveFd fd).Inv := by
  have hopen : (s.openFd fd).book.Sound (some fd) := h.sound.open hnew rfl rfl rfl
  refine ⟨hopen.give (h := none) (.refl _) (fun h' hne => ?_) rfl rfl, fun h' x hx => ?_,
    fun c hc => ?_⟩
  · cases h' with
    | none => exact absurd rfl hne
    | some a => rfl
  · cases h' with
    | some a => exact h.pos (some a) x hx
    | none =>
      rcases List.mem_cons.mp hx with rfl | hx
      · exact hpos
      · exact h.pos none x hx
  · obtain ⟨h1, hn⟩ := h.freed c hc
    refine ⟨h1, hn.trans ?_⟩
    simp only [giveFd, openFd, Function.update_apply]
    split_ifs with he
    · rw [he]
      exact Nat.le_succ _
    · exact le_rfl

theorem inv_sameIdle (h : s.Inv) {mgr : ConnsMgr} (hidle : ∀ a, mgr.idleAt a = s.mgr.idleAt a) :
    ({ s with mgr := mgr } : ConnsLedger).Inv := by
  have hbook : ({ s with mgr := mgr } : ConnsLedger).book = s.book := by
    simp only [book, funext hidle]
  exact ⟨hbook ▸ h.sound, hbook ▸ h.pos, h.freed⟩

theorem inv_freeFd (h : s.Inv) {remote : Remote} {fd now : ℤ} (hown : fd ∈ s.owned) :
    (s.next (.call (.freeFd remote fd now))).Inv := by
  have hloose := h.take hown
  have hpos := h.pos none fd hown
  have hfreed : ∀ c ∈ s.freed ++ [s.conn fd], 1 ≤ c.2 ∧ c.2 ≤ s.opens c.1 := by
    intro c hc
    rcases List.mem_append.mp hc with hc | hc
    · exact h.freed c hc
    · rw [List.mem_singleton.mp hc]
      exact ⟨Nat.one_le_iff_ne_zero.mpr (h.sound.held_open fd none hown).1, le_rfl⟩
  simp only [next, ConnsMgr.call, Option.elim_some, apply, Option.elim_none]
  rcases s.mgr.idleAt_freeFd remote fd now with ⟨hclosed, hidle⟩ | ⟨hclosed, hself, hother⟩
  · rw [hclosed]
    have hheld : ∀ h' : Option Addr,
        h'.elim (s.owned.erase fd) (s.mgr.freeFd remote fd now).2.idleAt =
          h'.elim (s.owned.erase fd) s.mgr.idleAt := fun h' => by rw [funext hidle]
    refine ⟨hloose.close (funext hheld) rfl rfl, fun h' x hx => ?_, hfreed⟩
    exact pos_erase h fd h' x ((List.Perm.of_eq (hheld h')).subset hx)
  · rw [hclosed]
    refine ⟨hloose.give (h := some remote.addr) (.of_eq hself) (fun h' hne => ?_) rfl rfl,
      fun h' x hx => ?_, hfreed⟩
    · cases h' with
      | none => rfl
      | some a => exact hother a fun he => hne (congrArg some he)
    · cases h' with
      | none => exact pos_erase h fd none x hx
      | some a =>
        by_cases ha : a = remote.addr
        · subst ha
          rcases List.mem_cons.mp ((List.Perm.of_eq hself).subset hx) with rfl | hx
          · exact hpos
          · exact h.pos (some remote.addr) x hx
        · exact h.pos (some a) x ((List.Perm.of_eq (hother a ha)).subset hx)

theorem Inv.pop (h : s.Inv) (mgr : ConnsMgr) {addr : Addr} {fd : ℤ}
    (hself : s.mgr.idleAt addr = fd :: mgr.idleAt addr)
    (hother : ∀ a, a ≠ addr → mgr.idleAt a = s.mgr.idleAt a) :
    ({ s with mgr := mgr } : ConnsLedger).book.Sound (some fd) ∧
      ∀ h', ∀ x ∈ ({ s with mgr := mgr } : ConnsLedger).book.held h', 0 < x := by
  refine ⟨h.sound.take (h := some addr) (List.Perm.of_eq hself) (fun h' hne => ?_) rfl rfl,
    fun h' x hx => ?_⟩
  · cases h' with
    | none => rfl
    | some a => exact hother a fun he => hne (congrArg some he)
  · cases h' with
    | none => exact h.pos none x hx
    | some a =>
      by_cases ha : a = addr
      · subst ha
        exact h.pos (some a) x ((List.Perm.of_eq hself.symm).subset (List.mem_cons_of_mem _ hx))
      · exact h.pos (some a) x ((List.Perm.of_eq (hother a ha)).subset hx)

theorem inv_getFd (h : s.Inv) {service : Service} {failRemotes : List Remote} {rand : ℕ}
    {env : ConnEnv} (he : s.Enabled (.call (.getFd service failRemotes rand env))) :
    (s.next (.call (.getFd service failRemotes rand env))).Inv := by
  obtain ⟨-, hpermits⟩ := he
  simp only [next, ConnsMgr.call] at hpermits ⊢
  cases hg : s.mgr.getFd service failRemotes rand env with
  | none => exact h
  | some q =>
    obtain ⟨ref, r, mgr⟩ := q
    rw [hg] at hpermits
    obtain ⟨-, hnew⟩ := hpermits _ rfl
    obtain ⟨addr, popped, hself, hother, hres⟩ :=
      ConnsMgr.idleAt_getFd (fun a => h.pos (some a)) hg
    simp only [Option.map_some, Option.elim_some, apply, Option.elim_none] at hnew ⊢
    rcases hres with ⟨hconn, hclosed, rfl⟩ | ⟨hconn, hclosed⟩
    · -- the descriptor on top of the pool is still connected
      have hpos : 0 < r.fd := h.pos (some addr) r.fd
        ((List.Perm.of_eq hself.symm).subset List.mem_cons_self)
      obtain ⟨hpop, hpops⟩ := h.pop mgr hself hother
      rw [hclosed, hconn, if_pos hpos]
      refine ⟨hpop.give (h := none) (.refl _) (fun h' hne => ?_) rfl rfl, fun h' x hx => ?_,
        h.freed⟩
      · cases h' with
        | none => exact absurd rfl hne
        | some a => rfl
      · cases h' with
        | some a => exact hpops (some a) x hx
        | none =>
          rcases List.mem_cons.mp hx with rfl | hx
          · exact hpos
          · exact h.pos none x hx
    · -- a descriptor that is no longer connected is closed before the manager connects
      have hmid : (r.closed.elim { s with mgr := mgr } (closeFd { s with mgr := mgr })).Inv := by
        rw [hclosed]
        cases popped with
        | none =>
          refine inv_sameIdle h fun a => ?_
          by_cases ha : a = addr
          · rw [ha]
            exact hself.symm
          · exact hother a ha
        | some fd =>
          obtain ⟨hpop, hpops⟩ := h.pop mgr hself hother
          exact ⟨hpop.close rfl rfl rfl, hpops, h.freed⟩
      rw [if_pos hconn] at hnew ⊢
      by_cases hpos : 0 < r.fd
      · rw [if_pos hpos] at hnew ⊢
        refine inv_connect hmid hpos fun hopen => hnew r.fd rfl ?_
        revert hopen
        cases r.closed <;> exact id
      · rw [if_neg hpos]
        exact hmid

theorem inv_next {l : Label} (h : s.Inv) (hl : s.Enabled l) (hkept : s.PoolsKept l) :
    (s.next l).Inv := by
  cases l with
  | connect fd => exact inv_connect h hl.1 hl.2
  | close fd => exact inv_close h hl
  | call c =>
    cases c with
    | freeFd remote fd now =>
      obtain ⟨-, hpermits⟩ := hl
      exact inv_freeFd h ((hpermits _ rfl).1 fd rfl)
    | getFd service failRemotes rand env => exact inv_getFd h hl
    | reportStatus remote status =>
      exact inv_sameIdle h (s.mgr.idleAt_reportStatus remote status)
    | configRemotes remotes =>
      refine inv_sameIdle h fun a => ?_
      rw [ConnsMgr.idleAt_configRemotes]
      split_ifs with hknown
      · rfl
      · exact (hkept a fun r hr he => hknown ⟨r, hr, he⟩).symm

theorem inv_init (longConnKeepaliveSec : ℤ) : (init longConnKeepaliveSec).Inv := by
  have hnone : ∀ h, (init longConnKeepaliveSec).book.held h = [] := by
    rintro (_ | a) <;> rfl
  refine ⟨.initial hnone (fun _ => rfl) rfl, ?_, ?_⟩
  · exact fun h fd hfd => absurd (hnone h ▸ hfd) List.not_mem_nil
  · exact fun c hc => absurd hc List.not_mem_nil

/-- In a run in which no deleted pool holds idle descriptors, every connection
passed to `FreeFd` is stored once in one pool, handed out, or closed once, and
every open descriptor is with a caller or in a pool. -/
theorem poolsKept_settled (longConnKeepaliveSec : ℤ) (ls : List Label)
    (hrun : poolsKept.Admits (init longConnKeepaliveSec) ls) :
    let s := machine.exec (init longConnKeepaliveSec) ls
    (∀ c ∈ s.freed, s.Settled c) ∧
      ∀ fd, s.IsOpen fd → fd ∈ s.owned ∨ ∃ a, fd ∈ s.mgr.idleAt a := by
  have h : Inv (machine.exec (init longConnKeepaliveSec) ls) :=
    poolsKept.invariant (fun _ _ h hl => inv_next h hl.1 hl.2) (inv_init longConnKeepaliveSec) hrun
  refine ⟨fun c hc => ?_, fun fd hopen => ?_⟩
  · obtain ⟨h1, hn⟩ := h.freed c hc
    exact h.settled h1 hn
  · obtain ⟨h', hheld⟩ := (h.sound.isOpen_iff fd).mp hopen
    cases h' with
    | none => exact .inl hheld
    | some a => exact .inr ⟨a, hheld⟩

instance (s : ConnsLedger) (fd : ℤ) : Decidable (s.IsOpen fd) :=
  inferInstanceAs (Decidable (_ ∧ _))

instance (s : ConnsLedger) (e : ConnsMgr.Effect) : Decidable (s.Permits e) :=
  inferInstanceAs (Decidable ((∀ fd ∈ e.taken, _) ∧ ∀ fd ∈ e.opened, _))

instance (s : ConnsLedger) : ∀ l, Decidable (s.Enabled l)
  | .call c => inferInstanceAs (Decidable (s.mgr.Callable c ∧ ∀ r ∈ s.mgr.call c, _))
  | .connect _ => inferInstanceAs (Decidable (_ ∧ _))
  | .close _ => inferInstanceAs (Decidable (_ ∈ _))

instance (s : ConnsLedger) (l : Label) : Decidable (machine.enabled s l) :=
  inferInstanceAs (Decidable (s.Enabled l))

def freedRun : List Label :=
  [.call (.configRemotes [ConnsMgr.remoteAt 1]), .connect 5,
    .call (.freeFd (ConnsMgr.remoteAt 1) 5 0)]

theorem poolsKept_settled_freedRun :
    (5, 1) ∈ (machine.exec (init 10) freedRun).freed ∧
      (machine.exec (init 10) freedRun).Settled (5, 1) := by
  have hmem : ((5, 1) : Conn) ∈ (machine.exec (init 10) freedRun).freed := by decide
  refine ⟨hmem, (poolsKept_settled 10 freedRun ?_).1 (5, 1) hmem⟩
  exact ⟨⟨by decide, fun _ _ => rfl⟩, ⟨by decide, trivial⟩, ⟨by decide, trivial⟩, trivial⟩

/-- The remote is taken out of the configuration: the connection stays open and
is neither stored nor handed out. -/
theorem freedRun_lost :
    ¬ ∀ (longConnKeepaliveSec : ℤ) (ls : List Label),
      machine.Admits (init longConnKeepaliveSec) ls →
        ∀ c ∈ (machine.exec (init longConnKeepaliveSec) ls).freed,
          (machine.exec (init longConnKeepaliveSec) ls).Settled c := by
  intro h
  cases h 10 (freedRun ++ [.call (.configRemotes [])]) (by decide) (5, 1) (by decide) with
  | stored a hlast hone honly hout hclosed =>
    have hnil : (machine.exec (init 10)
        (freedRun ++ [.call (.configRemotes [])])).mgr.idleAt a = [] := rfl
    rw [hnil] at hone
    cases hone
  | out hout hidle hclosed => exact absurd hout.2 (by decide)
  | closed hclosed hout hidle => exact absurd hclosed (by decide)

end ConnsLedger

end Magneto
