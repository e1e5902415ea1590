import Magneto.ConnsMgrSpec
import Magneto.Lib.Machine

/-!
# The age of a pooled connection

`Get` and `Put` on the pool of one remote, and closes of the descriptors it has handed out.
The operating system may give the number of a closed descriptor to a new connection, so a
connection is more than its number: the state keeps the open connections, each with the time
it was first put. The pool keeps an expiry time for a number, and only the `Put` that retires
a connection clears it. A connection that is closed elsewhere, by `Get` or because the pool is
full leaves its expiry time to the next connection with its number.
-/

namespace Magneto

structure PooledConn where
  firstPut : Option ℤ
  deriving DecidableEq, Repr

structure PoolRun where
  pool : PoolConnsPerRemote
  conns : ℤ → Option PooledConn
  now : ℤ

namespace PoolRun

inductive Label
  | get (env : ConnEnv)
  | put (fd now : ℤ)
  | close (fd : ℤ)
  deriving DecidableEq, Repr

def init (remote : Remote) (now : ℤ) : PoolRun := ⟨.new remote, fun _ => none, now⟩

def closeFd (conns : ℤ → Option PooledConn) : Option ℤ → ℤ → Option PooledConn
  | some fd => Function.update conns fd none
  | none => conns

def afterGet (s : PoolRun) (r : PoolGet) : ℤ → Option PooledConn :=
  let conns := closeFd s.conns r.closed
  if r.connected.isSome ∧ 0 < r.fd then Function.update conns r.fd (some ⟨none⟩) else conns

def stamp (now : ℤ) (c : PooledConn) : PooledConn := ⟨some (c.firstPut.getD now)⟩

def afterPut (s : PoolRun) (fd now : ℤ) (closed : Option ℤ) : ℤ → Option PooledConn :=
  closeFd (Function.update s.conns fd ((s.conns fd).map (stamp now))) closed

def next (keepalive : ℤ) (s : PoolRun) : Label → PoolRun
  | .get env =>
    let r := s.pool.get env
    { s with pool := r.pool, conns := s.afterGet r }
  | .put fd now =>
    let r := s.pool.put fd now keepalive
    ⟨r.2, s.afterPut fd now r.1, now⟩
  | .close fd => { s with conns := closeFd s.conns (some fd) }

def HandedOut (s : PoolRun) (fd : ℤ) : Prop := (s.conns fd).isSome ∧ fd ∉ s.pool.fds

instance (s : PoolRun) (fd : ℤ) : Decidable (s.HandedOut fd) := inferInstanceAs (Decidable (_ ∧ _))

def Enabled (s : PoolRun) : Label → Prop
  | .get env =>
    let r := s.pool.get env
    r.connected.isSome → 0 < r.fd → closeFd s.conns r.closed r.fd = none
  | .put fd now => s.HandedOut fd ∧ s.now ≤ now
  | .close fd => s.HandedOut fd

instance (s : PoolRun) : ∀ l, Decidable (s.Enabled l)
  | .get _ => inferInstanceAs (Decidable (_ → _ → _))
  | .put _ _ => inferInstanceAs (Decidable (_ ∧ _))
  | .close fd => inferInstanceAs (Decidable (s.HandedOut fd))

def machine (keepalive : ℤ) : Machine PoolRun Label where
  enabled := Enabled
  next := next keepalive

instance (keepalive : ℤ) (s : PoolRun) (l : Label) : Decidable ((machine keepalive).enabled s l) :=
  inferInstanceAs (Decidable (s.Enabled l))

/-- `Put` finds room in the pool and closes the connection nevertheless: it has expired. -/
def Retires (keepalive : ℤ) (s : PoolRun) (fd now : ℤ) : Prop :=
  s.pool.fds.length < s.pool.remote.longConns ∧ (s.pool.put fd now keepalive).1 = some fd

instance (keepalive : ℤ) (s : PoolRun) (fd now : ℤ) : Decidable (s.Retires keepalive fd now) :=
  inferInstanceAs (Decidable (_ ∧ _))

def OfAge (keepalive : ℤ) (s : PoolRun) (fd now : ℤ) : Prop :=
  ∃ c, s.conns fd = some c ∧ c.firstPut.getD now + keepalive ≤ now

/-- A connection that is put for the first time, and for which there is room, finds no expiry
time under its number. -/
def Unmarked (s : PoolRun) : Label → Prop
  | .put fd _ => s.pool.fds.length < s.pool.remote.longConns →
      (s.conns fd).bind PooledConn.firstPut = none → s.pool.expiretimeSec fd = 0
  | _ => True

instance (s : PoolRun) : ∀ l, Decidable (s.Unmarked l)
  | .put _ _ => inferInstanceAs (Decidable (_ → _ → _))
  | .get _ => inferInstanceAs (Decidable True)
  | .close _ => inferInstanceAs (Decidable True)

def unmarked (keepalive : ℤ) : Machine PoolRun Label := (machine keepalive).guarded Unmarked

instance (keepalive : ℤ) (s : PoolRun) (l : Label) :
    Decidable ((unmarked keepalive).enabled s l) :=
  inferInstanceAs (Decidable (s.Enabled l ∧ s.Unmarked l))

def Due (keepalive t expiretimeSec : ℤ) : Prop :=
  expiretimeSec = 0 ∨ t + keepalive ≤ expiretimeSec

structure Inv (keepalive : ℤ) (s : PoolRun) : Prop where
  past : ∀ fd c t, s.conns fd = some c → c.firstPut = some t → t ≤ s.now
  due : ∀ fd c t, s.conns fd = some c → c.firstPut = some t →
    Due keepalive t (s.pool.expiretimeSec fd)

section step

variable {keepalive : ℤ} {s : PoolRun}

theorem mem_closeFd {conns : ℤ → Option PooledConn} {closed : Option ℤ} {fd : ℤ} {c : PooledConn}
    (h : closeFd conns closed fd = some c) : conns fd = some c ∧ closed ≠ some fd := by
  cases closed with
  | none => exact ⟨h, by simp⟩
  | some fd' =>
    by_cases hfd : fd = fd'
    · subst hfd
      simp [closeFd] at h
    · rw [closeFd, Function.update_of_ne hfd] at h
      exact ⟨h, fun he => hfd (Option.some.inj he).symm⟩

theorem mem_afterGet {r : PoolGet} {fd t : ℤ} {c : PooledConn} (h : s.afterGet r fd = some c)
    (hput : c.firstPut = some t) : s.conns fd = some c := by
  unfold afterGet at h
  split_ifs at h
  · by_cases hfd : fd = r.fd
    · subst hfd
      rw [Function.update_self, Option.some.injEq] at h
      subst h
      cases hput
    · rw [Function.update_of_ne hfd] at h
      exact (mem_closeFd h).1
  · exact (mem_closeFd h).1

theorem mem_afterPut {fd now fd' : ℤ} {closed : Option ℤ} {c : PooledConn}
    (h : s.afterPut fd now closed fd' = some c) :
    fd' ≠ fd ∧ s.conns fd' = some c ∨
      fd' = fd ∧ closed ≠ some fd ∧ ∃ c₀, s.conns fd = some c₀ ∧ c = stamp now c₀ := by
  obtain ⟨hconns, hclosed⟩ := mem_closeFd h
  by_cases hfd : fd' = fd
  · subst hfd
    rw [Function.update_self] at hconns
    obtain ⟨c₀, hc₀, rfl⟩ := Option.map_eq_some_iff.mp hconns
    exact .inr ⟨rfl, hclosed, c₀, hc₀, rfl⟩
  · rw [Function.update_of_ne hfd] at hconns
    exact .inl ⟨hfd, hconns⟩

theorem Inv.get (h : s.Inv keepalive) (env : ConnEnv) :
    (next keepalive s (.get env)).Inv keepalive := by
  refine ⟨fun fd c t hc ht => h.past fd c t (mem_afterGet hc ht) ht, fun fd c t hc ht => ?_⟩
  show Due keepalive t ((s.pool.get env).pool.expiretimeSec fd)
  rw [PoolConnsPerRemote.get_pool]
  exact h.due fd c t (mem_afterGet hc ht) ht

theorem Inv.close (h : s.Inv keepalive) (fd : ℤ) :
    (next keepalive s (.close fd)).Inv keepalive := by
  have hopen : ∀ fd' c, closeFd s.conns (some fd) fd' = some c → s.conns fd' = some c :=
    fun _ _ hc => (mem_closeFd hc).1
  exact ⟨fun fd' c t hc ht => h.past fd' c t (hopen fd' c hc) ht,
    fun fd' c t hc ht => h.due fd' c t (hopen fd' c hc) ht⟩

theorem stamp_firstPut {now t : ℤ} {c : PooledConn} (h : (stamp now c).firstPut = some t) :
    c.firstPut = some t ∨ c.firstPut = none ∧ t = now := by
  have ht : c.firstPut.getD now = t := Option.some.inj h
  cases hc : c.firstPut with
  | none =>
    rw [hc] at ht
    exact .inr ⟨rfl, ht.symm⟩
  | some t₀ =>
    rw [hc] at ht
    exact .inl (congrArg some ht)

theorem Inv.put (h : s.Inv keepalive) {fd now : ℤ} (hnow : s.now ≤ now)
    (hmark : s.Unmarked (.put fd now)) : (next keepalive s (.put fd now)).Inv keepalive := by
  have hcases := s.pool.put_cases fd now keepalive
  have hexp : ∀ fd', fd' ≠ fd → (s.pool.put fd now keepalive).2.expiretimeSec fd' =
      s.pool.expiretimeSec fd' := by
    intro fd' hne
    generalize s.pool.put fd now keepalive = r at hcases ⊢
    cases hcases with
    | full | kept => rfl
    | retired | marked => exact Function.update_of_ne hne _ _
  refine ⟨fun fd' c t hc ht => ?_, fun fd' c t hc ht => ?_⟩
  · rcases mem_afterPut hc with ⟨-, hc⟩ | ⟨-, -, c₀, hc₀, rfl⟩
    · exact (h.past fd' c t hc ht).trans hnow
    · rcases stamp_firstPut ht with ht | ⟨-, rfl⟩
      · exact (h.past fd c₀ t hc₀ ht).trans hnow
      · exact le_rfl
  · show Due keepalive t ((s.pool.put fd now keepalive).2.expiretimeSec fd')
    rcases mem_afterPut hc with ⟨hne, hc⟩ | ⟨rfl, hopen, c₀, hc₀, rfl⟩
    · rw [hexp fd' hne]
      exact h.due fd' c t hc ht
    · generalize s.pool.put fd' now keepalive = r at hcases hopen ⊢
      cases hcases with
      | full => exact absurd rfl hopen
      | retired => exact absurd rfl hopen
      | kept hroom hset hlt =>
        -- a connection that was never put would have found no expiry time
        rcases stamp_firstPut ht with ht | ⟨hnone, -⟩
        · exact h.due fd' c₀ t hc₀ ht
        · exact absurd (hmark hroom (by rw [hc₀]; exact hnone)) hset
      | marked hroom hset =>
        dsimp only
        rw [Function.update_self]
        right
        rcases stamp_firstPut ht with ht | ⟨-, rfl⟩
        · have hpast := h.past fd' c₀ t hc₀ ht
          omega
        · exact le_rfl

end step

theorem inv_init (keepalive : ℤ) (remote : Remote) (now : ℤ) : (init remote now).Inv keepalive :=
  ⟨by simp [init], by simp [init]⟩

theorem exec_inv {keepalive : ℤ} (remote : Remote) (start : ℤ) {ls : List Label}
    (hrun : (unmarked keepalive).Admits (init remote start) ls) :
    ((unmarked keepalive).exec (init remote start) ls).Inv keepalive := by
  refine (unmarked keepalive).invariant (I := Inv keepalive) (fun s l h hl => ?_)
    (inv_init keepalive remote start) hrun
  cases l with
  | get env => exact h.get env
  | put fd now => exact h.put hl.1.2 hl.2
  | close fd => exact h.close fd

/-- In every run in which a connection that is put for the first time finds no expiry time under
its number, `Put` retires only connections that were first put `keepalive` seconds before. -/
theorem retires_ofAge (keepalive : ℤ) (remote : Remote) (start : ℤ) (ls : List Label)
    (fd now : ℤ)
    (hrun : (unmarked keepalive).Admits (init remote start) (ls ++ [.put fd now])) :
    let s := (machine keepalive).exec (init remote start) ls
    s.Retires keepalive fd now → s.OfAge keepalive fd now := by
  intro s hret
  obtain ⟨hls, ⟨⟨hout, -⟩, hmark⟩, -⟩ := (unmarked keepalive).admits_append.mp hrun
  have hinv : s.Inv keepalive := exec_inv remote start hls
  have hopen : s.HandedOut fd := hout
  have hmark : s.Unmarked (.put fd now) := hmark
  obtain ⟨c, hc⟩ := Option.isSome_iff_exists.mp hopen.1
  refine ⟨c, hc, ?_⟩
  obtain ⟨hroom, hclosed⟩ := hret
  have hcases := s.pool.put_cases fd now keepalive
  generalize s.pool.put fd now keepalive = r at hcases hclosed
  cases hcases with
  | full hfull => omega
  | kept => cases hclosed
  | marked => cases hclosed
  | retired _ hset hnow =>
    cases hput : c.firstPut with
    | none => exact absurd (hmark hroom (by rw [hc]; exact hput)) hset
    | some t =>
      have hdue := (hinv.due fd c t hc hput).resolve_left hset
      exact hdue.trans hnow

def oneLong : Remote := ⟨⟨1, 80⟩, 1, 1, 50, 50, 50⟩

/-- A connection is put at the time 0 and again ten seconds later. -/
def agedRun : List Label := [.get ⟨true, 5, false⟩, .put 5 0, .get ⟨true, 6, false⟩]

theorem retires_ofAge_agedRun :
    let s := (machine 10).exec (init oneLong 0) agedRun
    s.Retires 10 5 10 ∧ s.OfAge 10 5 10 := by
  have hrun : (unmarked 10).Admits (init oneLong 0) (agedRun ++ [.put 5 10]) := by decide
  have hret : ((machine 10).exec (init oneLong 0) agedRun).Retires 10 5 10 := by decide
  exact ⟨hret, retires_ofAge 10 oneLong 0 agedRun 5 10 hrun hret⟩

/-- The connection that was put at the time 0 is found broken, and its number is reused. -/
def reusedRun : List Label := [.get ⟨true, 5, false⟩, .put 5 0, .get ⟨false, 5, false⟩]

theorem reusedNumber_retired : ¬ ∀ (keepalive : ℤ) (remote : Remote) (start : ℤ)
    (ls : List Label) (fd now : ℤ),
    (machine keepalive).Admits (init remote start) (ls ++ [.put fd now]) →
    let s := (machine keepalive).exec (init remote start) ls
    s.Retires keepalive fd now → s.OfAge keepalive fd now := by
  intro h
  obtain ⟨c, hc, hage⟩ := h 10 oneLong 0 reusedRun 5 10 (by decide) (by decide)
  have hnew : ((machine 10).exec (init oneLong 0) reusedRun).conns 5 = some ⟨none⟩ := by decide
  obtain rfl : ⟨none⟩ = c := Option.some.inj (hnew.symm.trans hc)
  exact absurd hage (by decide)

end PoolRun

end Magneto
