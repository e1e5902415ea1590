import Magneto.CloseHashmapRun
import Magneto.ConnsCalls
import Magneto.Confs

/-!
# The connections manager on its hash map

`ConnsMgr` with `conns_` as the `CloseHashmap` that it is, of `kNumRemotes` times
a hundred slots. As long as no more pools are made than there are slots, it
answers every sequence of calls as the manager whose pools are a finite map.
-/

namespace Magneto

structure ConnsTable where
  longConnKeepaliveSec : ℤ
  conns : CloseHashmap Addr PoolConnsPerRemote
  unhealthyGuys : List Remote
  tmpRemotes : List Remote
  tmpWeights : List ℕ

namespace ConnsTable

open ConnsMgr (Call Effect)

def kSlots : ℕ := Confs.ConfServices.kNumRemotes * 100

/-- `HashRemote`, where `hash` is `std::tr1::hash<size_t>`. -/
def hashRemote (hash : ℕ → ℕ) (addr : Addr) : ℕ :=
  hash ((addr.sinPort * 2 ^ 32 + addr.sAddr) % 2 ^ 64)

def new (hash : ℕ → ℕ) (longConnKeepaliveSec : ℤ) : Option ConnsTable :=
  (CloseHashmap.init kSlots (hashRemote hash)).map fun conns =>
    ⟨longConnKeepaliveSec, conns, [], [], []⟩

def view (t : ConnsTable) : ConnsMgr :=
  ⟨t.longConnKeepaliveSec, t.conns.get, t.unhealthyGuys, t.tmpRemotes, t.tmpWeights⟩

def configRemote (t : ConnsTable) (r : Remote) : Option ConnsTable :=
  let conns := match t.conns.get r.addr with
    | some _ => t.conns
    | none => (t.conns.insert r.addr (.new r)).2
  match conns.get r.addr with
  | some _ =>
    some { t with conns := conns.modify r.addr (·.setNumLongConnsPerRemote r.longConns) }
  | none => none

def eraseGuy (guys : List Remote) (addr : Addr) : List Remote :=
  guys.filter (fun guy => guy.addr ≠ addr)

def sweepRemotes (t : ConnsTable) (remotes : List Remote) : ConnsTable :=
  let r := t.conns.sweep (fun a => remotes.any fun r => r.addr = a)
    (fun guys e => eraseGuy guys e.1) t.unhealthyGuys
  { t with conns := r.2, unhealthyGuys := r.1 }

def configRemotes (t : ConnsTable) (remotes : List Remote) : Option ConnsTable :=
  (remotes.foldlM configRemote t).map (·.sweepRemotes remotes)

def getRemote (t : ConnsTable) (service : Service) (failRemotes : List Remote) (rand : ℕ) :
    Option RemoteRef × ConnsTable :=
  let r := t.view.getRemote service failRemotes rand
  (r.1, { t with tmpRemotes := r.2.tmpRemotes, tmpWeights := r.2.tmpWeights })

/-- `GetFd_`; a pool that the hash map refuses is used once and lost. -/
def getFdOf (t : ConnsTable) (remote : Remote) (env : ConnEnv) : PoolGet × ConnsTable :=
  match t.conns.get remote.addr with
  | some p =>
    let r := p.get env
    (r, { t with conns := t.conns.modify remote.addr fun _ => r.pool })
  | none =>
    let r := (PoolConnsPerRemote.new remote).get env
    (r, { t with conns := (t.conns.insert remote.addr r.pool).2 })

def getFd (t : ConnsTable) (service : Service) (failRemotes : List Remote) (rand : ℕ)
    (env : ConnEnv) : Option (RemoteRef × PoolGet × ConnsTable) :=
  let r := t.getRemote service failRemotes rand
  r.1.bind fun ref => (ref.deref r.2.tmpRemotes).map fun remote => (ref, r.2.getFdOf remote env)

def freeFd (t : ConnsTable) (remote : Remote) (fd now : ℤ) : Option ℤ × ConnsTable :=
  match t.conns.get remote.addr with
  | none => (some fd, t)
  | some p =>
    if 0 < p.remote.longConns then
      let r := p.put fd now t.longConnKeepaliveSec
      (r.1, { t with conns := t.conns.modify remote.addr fun _ => r.2 })
    else (some fd, t)

def reportStatus (t : ConnsTable) (remote : Remote) (status : Bool) : ConnsTable :=
  match t.conns.get remote.addr with
  | none => t
  | some p =>
    let p' := p.reportStatus status
    let t := { t with conns := t.conns.modify remote.addr fun _ => p' }
    if p.isHealthy ∧ ¬ p'.isHealthy then
      { t with unhealthyGuys := ConnsMgr.insertGuy t.unhealthyGuys remote }
    else if ¬ p.isHealthy ∧ p'.isHealthy then
      { t with unhealthyGuys := ConnsMgr.eraseGuy t.unhealthyGuys remote }
    else t

def call (t : ConnsTable) : Call → Option (Effect × ConnsTable)
  | .configRemotes remotes => (t.configRemotes remotes).map (⟨none, none, none, none⟩, ·)
  | .getFd service failRemotes rand env =>
    (t.getFd service failRemotes rand env).map fun r =>
      let got := if 0 < r.2.1.fd then some r.2.1.fd else none
      (⟨r.2.1.closed, if r.2.1.connected.isSome then got else none, got, none⟩, r.2.2)
  | .freeFd remote fd now =>
    let r := t.freeFd remote fd now
    some (⟨r.1, none, none, some fd⟩, r.2)
  | .reportStatus remote status => some (⟨none, none, none, none⟩, t.reportStatus remote status)

def run : ConnsTable → List Call → Option (List Effect × ConnsTable)
  | t, [] => some ([], t)
  | t, c :: cs => (t.call c).bind fun r => (run r.2 cs).map fun s => (r.1 :: s.1, s.2)

end ConnsTable

namespace ConnsMgr

def run : ConnsMgr → List Call → Option (List Effect × ConnsMgr)
  | m, [] => some ([], m)
  | m, c :: cs => (m.call c).bind fun r => (run r.2 cs).map fun s => (r.1 :: s.1, s.2)

def newPools : ConnsMgr → List Remote → ℕ
  | _, [] => 0
  | m, r :: rs => (if (m.conns r.addr).isNone then 1 else 0) +
    newPools (m.setPool r.addr ((m.pool r).setNumLongConnsPerRemote r.longConns)) rs

def Call.creates (m : ConnsMgr) : Call → ℕ
  | .configRemotes remotes => m.newPools remotes
  | .getFd service failRemotes rand _ =>
    let r := m.getRemote service failRemotes rand
    match r.1.bind (RemoteRef.deref r.2.tmpRemotes) with
    | some remote => if (m.conns remote.addr).isNone then 1 else 0
    | none => 0
  | _ => 0

def created : ConnsMgr → List Call → ℕ
  | _, [] => 0
  | m, c :: cs => c.creates m + created (calls.next m c) cs

end ConnsMgr

namespace ConnsTable

open ConnsMgr (Call Effect)

variable {t : ConnsTable} {m : ConnsMgr} {n : ℕ}

structure Stores (t : ConnsTable) (m : ConnsMgr) (n : ℕ) : Prop where
  sound : t.conns.Sound
  view : t.view = m
  room : n ≤ t.conns.emptySlots.card

theorem setPool_eq (m : ConnsMgr) (addr : Addr) (p : PoolConnsPerRemote) :
    m.setPool addr p = { m with conns := Function.update m.conns addr (some p) } := by
  unfold ConnsMgr.setPool
  congr 1
  funext a
  exact (Function.update_apply m.conns addr (some p) a).symm

theorem Stores.modify (h : t.Stores m n) {addr : Addr} {p : PoolConnsPerRemote}
    (hget : t.conns.get addr = some p) (f : PoolConnsPerRemote → PoolConnsPerRemote) :
    Stores { t with conns := t.conns.modify addr f } (m.setPool addr (f p)) n := by
  obtain ⟨hsound, hmap⟩ := h.sound.modify addr f
  refine ⟨hsound, ?_, ?_⟩
  · rw [setPool_eq, ← h.view]
    unfold ConnsTable.view
    rw [hmap, hget]
    rfl
  · rw [h.sound.emptySlots_modify]
    exact h.room

theorem Stores.insert (h : t.Stores m (1 + n)) {addr : Addr} (hget : t.conns.get addr = none)
    (p : PoolConnsPerRemote) :
    Stores { t with conns := (t.conns.insert addr p).2 } (m.setPool addr p) n := by
  have hroom := h.room
  have hyes : (t.conns.insert addr p).1 = true :=
    h.sound.insert_eq_true.mpr ⟨hget, CloseHashmap.room_of_emptySlots (by omega) addr⟩
  obtain ⟨hsound, hmap⟩ := h.sound.insert addr p
  have hempty := h.sound.emptySlots_insert addr p
  rw [if_pos hyes] at hmap hempty
  refine ⟨hsound, ?_, ?_⟩
  · rw [setPool_eq, ← h.view]
    unfold ConnsTable.view
    rw [hmap]
  · change n ≤ (t.conns.insert addr p).2.emptySlots.card
    omega

theorem Stores.pool (h : t.Stores m n) (remote : Remote) :
    m.pool remote = (t.conns.get remote.addr).getD (.new remote) := by
  rw [← h.view]
  rfl

theorem Stores.conns (h : t.Stores m n) (addr : Addr) : m.conns addr = t.conns.get addr := by
  rw [← h.view]
  rfl

theorem Stores.configRemote (h : t.Stores m n) {r : Remote} {k : ℕ}
    (hn : n = (if (m.conns r.addr).isNone then 1 else 0) + k) :
    ∃ t', t.configRemote r = some t' ∧
      t'.Stores (m.setPool r.addr ((m.pool r).setNumLongConnsPerRemote r.longConns)) k := by
  unfold ConnsTable.configRemote
  rw [h.pool]
  rw [h.conns] at hn
  cases hget : t.conns.get r.addr with
  | some p =>
    rw [hget] at hn
    obtain rfl : n = k := hn.trans (Nat.zero_add k)
    dsimp only
    rw [hget]
    exact ⟨_, rfl, h.modify hget _⟩
  | none =>
    rw [hget] at hn
    subst hn
    have hins := h.insert hget (.new r)
    have hget' : (t.conns.insert r.addr (.new r)).2.get r.addr = some (.new r) := by
      rw [← hins.conns, setPool_eq]
      exact Function.update_self _ _ _
    dsimp only
    rw [hget']
    refine ⟨_, rfl, ?_⟩
    have hmod := hins.modify hget' (·.setNumLongConnsPerRemote r.longConns)
    simp only [setPool_eq, Function.update_idem] at hmod ⊢
    exact hmod

theorem Stores.addRemotes (h : t.Stores m n) {remotes : List Remote} {k : ℕ}
    (hn : n = m.newPools remotes + k) :
    ∃ t', remotes.foldlM ConnsTable.configRemote t = some t' ∧
      t'.Stores (m.addRemotes remotes) k := by
  induction remotes generalizing t m n with
  | nil =>
    obtain rfl : n = k := hn.trans (Nat.zero_add k)
    exact ⟨t, rfl, h⟩
  | cons r remotes ih =>
    obtain ⟨t', ht', h'⟩ := h.configRemote (hn.trans (Nat.add_assoc _ _ _))
    obtain ⟨t'', ht'', h''⟩ := ih h' rfl
    refine ⟨t'', ?_, h''⟩
    rw [List.foldlM_cons, ht']
    exact ht''

theorem foldl_eraseGuy {α : Type*} (es : List (Addr × α)) (guys : List Remote) :
    es.foldl (fun guys e => eraseGuy guys e.1) guys =
      guys.filter fun guy => guy.addr ∉ es.map Prod.fst := by
  induction es generalizing guys with
  | nil => exact (List.filter_eq_self.mpr fun _ _ => rfl).symm
  | cons e es ih =>
    rw [List.foldl_cons, ih, eraseGuy, List.filter_filter]
    refine List.filter_congr fun guy _ => ?_
    rw [← Bool.decide_and]
    refine decide_eq_decide.mpr ?_
    rw [List.map_cons, List.mem_cons, not_or, and_comm]

theorem Stores.configRemotes (h : t.Stores m n) {remotes : List Remote} {k : ℕ}
    (hn : n = m.newPools remotes + k) :
    ∃ t', t.configRemotes remotes = some t' ∧ t'.Stores (m.configRemotes remotes) k := by
  obtain ⟨t', ht', h'⟩ := h.addRemotes hn
  let known (a : Addr) : Bool := remotes.any fun r => r.addr = a
  obtain ⟨hguys, hsound, hempty, hget⟩ :=
    h'.sound.sweep known (fun guys e => eraseGuy guys e.1) t'.unhealthyGuys
  have hswept (guy : Remote) :
      guy.addr ∉ (t'.conns.entries.filter fun e => !known e.1).map Prod.fst ↔
        (known guy.addr || (t'.conns.get guy.addr).isNone) = true := by
    rw [Bool.or_eq_true, Option.isNone_iff_eq_none, ← not_iff_not, not_not, not_or, List.mem_map]
    constructor
    · rintro ⟨⟨addr, p⟩, hmem, rfl⟩
      obtain ⟨hentry, hnot⟩ := List.mem_filter.mp hmem
      have hp := h'.sound.get_eq_some.mpr (CloseHashmap.mem_entries.mp hentry)
      exact ⟨Bool.not_eq_true _ ▸ (Bool.not_eq_true' _ ▸ hnot), hp ▸ Option.some_ne_none p⟩
    · rintro ⟨hnot, hp⟩
      obtain ⟨p, hp⟩ := Option.ne_none_iff_exists'.mp hp
      refine ⟨(guy.addr, p), List.mem_filter.mpr ⟨?_, ?_⟩, rfl⟩
      · exact CloseHashmap.mem_entries.mpr (h'.sound.get_eq_some.mp hp)
      · rw [Bool.not_eq_true', Bool.eq_false_iff]
        exact hnot
  have hview : (t'.sweepRemotes remotes).view = m.configRemotes remotes := by
    unfold ConnsMgr.configRemotes
    rw [← h'.view]
    unfold sweepRemotes ConnsTable.view
    dsimp only
    congr 1
    rw [hguys, foldl_eraseGuy]
    exact List.filter_congr fun guy _ => Bool.eq_iff_iff.mpr (decide_eq_true_iff.trans (hswept guy))
  refine ⟨_, by rw [ConnsTable.configRemotes, ht']; rfl, hsound, hview, ?_⟩
  exact Nat.le_trans h'.room (Nat.le_of_eq (congrArg Finset.card hempty).symm)

theorem getRemote_scratch (m : ConnsMgr) (service : Service) (failRemotes : List Remote)
    (rand : ℕ) :
    (m.getRemote service failRemotes rand).2 =
      { m with
        tmpRemotes := (m.getRemote service failRemotes rand).2.tmpRemotes
        tmpWeights := (m.getRemote service failRemotes rand).2.tmpWeights } := by
  unfold ConnsMgr.getRemote
  cases service.serviceStrategy with
  | kNormal => rfl
  | kInvalid => rfl
  | kWeight =>
    dsimp only [ConnsMgr.getRemoteWeight]
    split_ifs
    · rfl
    · split
      · rfl
      · split_ifs <;> rfl

theorem Stores.getRemote (h : t.Stores m n) (service : Service) (failRemotes : List Remote)
    (rand : ℕ) :
    (t.getRemote service failRemotes rand).1 = (m.getRemote service failRemotes rand).1 ∧
      (t.getRemote service failRemotes rand).2.Stores
        (m.getRemote service failRemotes rand).2 n := by
  obtain rfl := h.view
  refine ⟨rfl, h.sound, ?_, h.room⟩
  rw [getRemote_scratch]
  rfl

theorem Stores.getFdOf (h : t.Stores m n) {remote : Remote} {k : ℕ} (env : ConnEnv)
    (hn : n = (if (m.conns remote.addr).isNone then 1 else 0) + k) :
    (t.getFdOf remote env).1 = (m.getFdOf remote env).1 ∧
      (t.getFdOf remote env).2.Stores (m.getFdOf remote env).2 k := by
  unfold ConnsTable.getFdOf ConnsMgr.getFdOf
  dsimp only
  rw [h.pool]
  rw [h.conns] at hn
  cases hget : t.conns.get remote.addr with
  | some p =>
    rw [hget] at hn
    obtain rfl : n = k := hn.trans (Nat.zero_add k)
    exact ⟨rfl, h.modify hget _⟩
  | none =>
    rw [hget] at hn
    subst hn
    exact ⟨rfl, h.insert hget _⟩

theorem Stores.freeFd (h : t.Stores m n) (remote : Remote) (fd now : ℤ) :
    (t.freeFd remote fd now).1 = (m.freeFd remote fd now).1 ∧
      (t.freeFd remote fd now).2.Stores (m.freeFd remote fd now).2 n := by
  unfold ConnsTable.freeFd ConnsMgr.freeFd
  rw [h.conns]
  cases hget : t.conns.get remote.addr with
  | none => exact ⟨rfl, h⟩
  | some p =>
    have hsec : m.longConnKeepaliveSec = t.longConnKeepaliveSec := by
      rw [← h.view]
      rfl
    dsimp only
    rw [hsec]
    split_ifs
    · exact ⟨rfl, h.modify hget _⟩
    · exact ⟨rfl, h⟩

theorem Stores.reportStatus (h : t.Stores m n) (remote : Remote) (status : Bool) :
    (t.reportStatus remote status).Stores (m.reportStatus remote status) n := by
  unfold ConnsTable.reportStatus ConnsMgr.reportStatus
  rw [h.conns]
  cases hget : t.conns.get remote.addr with
  | none => exact h
  | some p =>
    have hmod := h.modify hget fun _ => p.reportStatus status
    have hview := hmod.view
    dsimp only
    split_ifs
    · refine ⟨hmod.sound, ?_, hmod.room⟩
      rw [← hview]
      rfl
    · refine ⟨hmod.sound, ?_, hmod.room⟩
      rw [← hview]
      rfl
    · exact hmod

theorem Stores.getFd (h : t.Stores m n) (service : Service) (failRemotes : List Remote)
    (rand : ℕ) (env : ConnEnv) {k : ℕ}
    (hn : n = (Call.getFd service failRemotes rand env).creates m + k) :
    (t.getFd service failRemotes rand env = none ∧ m.getFd service failRemotes rand env = none) ∨
      ∃ ref r t' m', t.getFd service failRemotes rand env = some (ref, r, t') ∧
        m.getFd service failRemotes rand env = some (ref, r, m') ∧ t'.Stores m' k := by
  obtain ⟨href, hsel⟩ := h.getRemote service failRemotes rand
  have htmp : (t.getRemote service failRemotes rand).2.tmpRemotes =
      (m.getRemote service failRemotes rand).2.tmpRemotes := by
    rw [← hsel.view]
    rfl
  unfold ConnsTable.getFd ConnsMgr.getFd
  unfold Call.creates at hn
  dsimp only at hn ⊢
  rw [href, htmp]
  cases hr : (m.getRemote service failRemotes rand).1 with
  | none => exact .inl ⟨rfl, rfl⟩
  | some ref =>
    rw [hr, Option.bind_some] at hn
    cases hd : ref.deref (m.getRemote service failRemotes rand).2.tmpRemotes with
    | none =>
      refine .inl ⟨?_, ?_⟩ <;> rw [Option.bind_some, hd, Option.map_none]
    | some remote =>
      rw [hd] at hn
      rw [← (ConnsMgr.getRemote_spec m service failRemotes rand).1] at hn
      obtain ⟨hres, hst⟩ := hsel.getFdOf env hn
      refine .inr ⟨ref, ((m.getRemote service failRemotes rand).2.getFdOf remote env).1, _, _, ?_,
        ?_, hst⟩
      · rw [Option.bind_some, hd, Option.map_some, ← hres]
      · rw [Option.bind_some, hd, Option.map_some]

theorem Stores.call (h : t.Stores m n) (c : Call) {k : ℕ} (hn : n = c.creates m + k) :
    (t.call c = none ∧ m.call c = none) ∨
      ∃ e t' m', t.call c = some (e, t') ∧ m.call c = some (e, m') ∧ t'.Stores m' k := by
  cases c with
  | configRemotes remotes =>
    obtain ⟨t', ht', h'⟩ := h.configRemotes hn
    exact .inr ⟨_, t', _, by rw [ConnsTable.call, ht']; rfl, rfl, h'⟩
  | getFd service failRemotes rand env =>
    obtain ⟨ht, hm⟩ | ⟨ref, r, t', m', ht, hm, h'⟩ := h.getFd service failRemotes rand env hn
    · exact .inl ⟨by rw [ConnsTable.call, ht]; rfl, by rw [ConnsMgr.call, hm]; rfl⟩
    · exact .inr ⟨_, t', m', by rw [ConnsTable.call, ht]; rfl, by rw [ConnsMgr.call, hm]; rfl, h'⟩
  | freeFd remote fd now =>
    obtain ⟨hclosed, h'⟩ := h.freeFd remote fd now
    obtain rfl : n = k := hn.trans (Nat.zero_add k)
    refine .inr ⟨_, _, _, rfl, ?_, h'⟩
    rw [hclosed]
    rfl
  | reportStatus remote status =>
    obtain rfl : n = k := hn.trans (Nat.zero_add k)
    exact .inr ⟨_, _, _, rfl, rfl, h.reportStatus remote status⟩

theorem Stores.run (h : t.Stores m n) {cs : List Call} (hn : m.created cs ≤ n) :
    (t.run cs).map (fun r => (r.1, r.2.view)) = m.run cs := by
  induction cs generalizing t m n with
  | nil => exact congrArg (fun m => some ([], m)) h.view
  | cons c cs ih =>
    have hsplit : m.created (c :: cs) =
        c.creates m + ConnsMgr.created (ConnsMgr.calls.next m c) cs :=
      rfl
    obtain ⟨k, rfl⟩ : ∃ k, n = c.creates m + k := ⟨n - c.creates m, by omega⟩
    rw [ConnsTable.run, ConnsMgr.run]
    obtain ⟨ht, hm⟩ | ⟨e, t', m', ht, hm, h'⟩ := h.call c rfl
    · rw [ht, hm]
      rfl
    · have hnext : ConnsMgr.calls.next m c = m' := congrArg (fun r => (r.map Prod.snd).getD m) hm
      rw [hnext] at hsplit
      have hrun := ih h' (by omega)
      rw [ht, hm, Option.bind_some, Option.bind_some, ← hrun, Option.map_map, Option.map_map]
      rfl

/-- Until as many pools have been made as there are slots, the manager answers every sequence of
calls as if its hash map were a finite map, whatever the hash values are. -/
theorem run_eq_run (hash : ℕ → ℕ) (longConnKeepaliveSec : ℤ) {cs : List Call}
    (hslots : (ConnsMgr.new longConnKeepaliveSec).created cs ≤ kSlots) :
    (new hash longConnKeepaliveSec).bind
        (fun t => (t.run cs).map fun r => (r.1, r.2.view)) =
      (ConnsMgr.new longConnKeepaliveSec).run cs := by
  obtain ⟨conns, hconns⟩ : ∃ conns : CloseHashmap Addr PoolConnsPerRemote,
      CloseHashmap.init kSlots (hashRemote hash) = some conns := ⟨_, if_neg (by decide)⟩
  obtain ⟨hsound, hget⟩ := CloseHashmap.sound_of_init hconns
  have hempty := CloseHashmap.emptySlots_of_init hconns
  have hstores : (ConnsTable.mk longConnKeepaliveSec conns [] [] []).Stores
      (ConnsMgr.new longConnKeepaliveSec) kSlots := by
    refine ⟨hsound, ?_, Nat.le_of_eq hempty.symm⟩
    unfold ConnsTable.view ConnsMgr.new
    rw [hget]
  rw [new, hconns, Option.map_some, Option.bind_some]
  exact hstores.run hslots

/-- A remote is dropped while it is unhealthy, and comes back. -/
def droppedRun : List Call :=
  [.configRemotes [ConnsMgr.remoteAt 1, ConnsMgr.remoteAt 2],
    .reportStatus (ConnsMgr.remoteAt 1) false,
    .configRemotes [ConnsMgr.remoteAt 2],
    .freeFd (ConnsMgr.remoteAt 1) 7 0,
    .configRemotes [ConnsMgr.remoteAt 1]]

theorem run_eq_run_droppedRun : (ConnsMgr.new 60).created droppedRun = 3 ∧
    (new id 60).bind (fun t => (t.run droppedRun).map fun r => (r.1, r.2.view)) =
      (ConnsMgr.new 60).run droppedRun :=
  ⟨by decide, run_eq_run id 60 (by decide)⟩

end ConnsTable

end Magneto
