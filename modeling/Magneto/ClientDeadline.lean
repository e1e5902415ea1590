import Magneto.Server
import Magneto.Lib.ListSet
import Mathlib.Data.List.Nodup

/-!
# The deadline of a client

A client connection waits for its request under a timer of the events driver. The time
that is left is set when the connection is armed, in milliseconds for a new one and cut
from the seconds of its keepalive for one that is used again, and is cut by every partial
read. The driver takes it as an `int`.
-/

namespace Magneto

/-- The timer of a waiting connection. As history, the deadline it was armed with and whether
`HandleMsgDestruct_` armed it. -/
structure ClientTimer where
  expireTimeMs : Option ℤ
  armed : ℤ
  rearmed : Bool
  deriving DecidableEq, Repr

structure WaitingClients where
  slave : SlaveThread
  timers : ℤ → Option ClientTimer
  now : ℤ

namespace WaitingClients

def init (now : ℤ) : WaitingClients := ⟨.init, fun _ => none, now⟩

def expireAt (now timeleftMs : ℤ) : Option ℤ :=
  let timeoMs := Word.narrow timeleftMs
  if 0 ≤ timeoMs then some (now + timeoMs) else none

def addTimer (env : ClientEnv) (timers : ℤ → Option ClientTimer) (fd timeleftMs : ℤ)
    (rearmed : Bool) : ℤ → Option ClientTimer :=
  Function.update timers fd (if env.addOk then
    some ⟨expireAt env.now timeleftMs, env.now + timeleftMs, rearmed⟩ else none)

/-- `RegEvent` with `kModEvent`, which keeps the timer when it sets none. -/
def modTimer (now timeleftMs : ℤ) (t : ClientTimer) : ClientTimer :=
  { t with expireTimeMs := (expireAt now timeleftMs).or t.expireTimeMs }

def handleMsgReadReq (conf : ServerConf) (env : ClientEnv) (x : WaitingClients) (m : MsgReadReq) :
    WaitingClients where
  slave := SlaveThread.handleMsgReadReq conf env x.slave m
  timers := addTimer env x.timers m.fdClient conf.rtimeoMs false
  now := env.now

def destructTimeleftMs (conf : ServerConf) (env : ClientEnv) (d : ClientReq) : ℤ :=
  min ((d.fdClientStarttimeSec + conf.clientKeepaliveSec - env.nowSec + 1) * 1000) conf.rtimeoMs

def Rearms (conf : ServerConf) (env : ClientEnv) (d : ClientReq) : Prop :=
  0 < d.fdClient ∧ 0 < destructTimeleftMs conf env d

instance (conf : ServerConf) (env : ClientEnv) (d : ClientReq) : Decidable (Rearms conf env d) :=
  inferInstanceAs (Decidable (_ ∧ _))

def handleMsgDestruct (conf : ServerConf) (env : ClientEnv) (x : WaitingClients) (d : ClientReq) :
    WaitingClients where
  slave := SlaveThread.handleMsgDestruct conf env x.slave d
  timers := if Rearms conf env d then
    addTimer env x.timers d.fdClient (destructTimeleftMs conf env d) true else x.timers
  now := env.now

def checkReadReq (env : ClientEnv) (event : EventsDriver.Event) (sent : Bool) (ctx : ReadReqCtx)
    (a : SlaveThread) : SlaveThread × Option ReadReqCtx :=
  if event ≠ .kErr then
    let r := SlaveThread.handleReadReq env ctx
    if r.1 = 0 then (if sent then a else a.releaseClient r.2.client, none)
    else if 0 < r.1 then ({ a with clients := r.2 :: a.clients }, some r.2)
    else (a.releaseClient r.2.client, none)
  else (a.releaseClient ctx.client, none)

def readReq (env : ClientEnv) (event : EventsDriver.Event) (sent : Bool) (fd : ℤ)
    (x : WaitingClients) : WaitingClients :=
  (x.slave.takeClient fd).elim { x with now := env.now } fun q =>
    let r := checkReadReq env event sent q.1 q.2
    { slave := r.1
      timers := Function.update x.timers fd
        (r.2.bind fun ctx => (x.timers fd).map (modTimer env.now ctx.timeleftMs))
      now := env.now }

def cleanTimeout (fd now : ℤ) (x : WaitingClients) : WaitingClients :=
  (x.slave.takeClient fd).elim { x with now := now } fun q =>
    ⟨q.2.releaseClient q.1.client, Function.update x.timers fd none, now⟩

inductive Label
  | mailReadReq (m : MsgReadReq) (env : ClientEnv)
  | mailDestruct (d : ClientReq) (env : ClientEnv)
  | readReq (fd : ℤ) (event : EventsDriver.Event) (env : ClientEnv) (sent : Bool)
  | cleanTimeout (fd now : ℤ)

def next (conf : ServerConf) (x : WaitingClients) : Label → WaitingClients
  | .mailReadReq m env => handleMsgReadReq conf env x m
  | .mailDestruct d env => handleMsgDestruct conf env x d
  | .readReq fd event env sent => x.readReq env event sent fd
  | .cleanTimeout fd now => x.cleanTimeout fd now

def Clock (x : WaitingClients) (env : ClientEnv) : Prop :=
  x.now ≤ env.now ∧ env.nowSec = env.now / 1000

instance (x : WaitingClients) (env : ClientEnv) : Decidable (x.Clock env) :=
  inferInstanceAs (Decidable (_ ∧ _))

def fds (x : WaitingClients) : List ℤ := x.slave.clients.map fun ctx => ctx.client.fdClient

/-- A descriptor that waits is open, so no other connection comes with its number. -/
def Enabled (x : WaitingClients) : Label → Prop
  | .mailReadReq m env => x.Clock env ∧ m.fdClient ∉ x.fds
  | .mailDestruct d env => x.Clock env ∧ d.fdClient ∉ x.fds
  | .readReq _ _ env _ => x.Clock env
  | .cleanTimeout fd now =>
    x.now ≤ now ∧ ((x.timers fd).bind (·.expireTimeMs)).any (· < now) = true

instance (x : WaitingClients) : ∀ l, Decidable (x.Enabled l)
  | .mailReadReq _ _ => inferInstanceAs (Decidable (_ ∧ _))
  | .mailDestruct _ _ => inferInstanceAs (Decidable (_ ∧ _))
  | .readReq _ _ env _ => inferInstanceAs (Decidable (x.Clock env))
  | .cleanTimeout _ _ => inferInstanceAs (Decidable (_ ∧ _))

def machine (conf : ServerConf) : Machine WaitingClients Label where
  enabled := Enabled
  next := next conf

structure Deadline (conf : ServerConf) (ctx : ReadReqCtx) (t : ClientTimer) : Prop where
  kept : ctx.lasttimeMs + ctx.timeleftMs = t.armed
  timer : t.expireTimeMs = some t.armed
  bound : t.rearmed = true →
    t.armed < (ctx.client.fdClientStarttimeSec + conf.clientKeepaliveSec + 2) * 1000

def DeadlinesKept (conf : ServerConf) (x : WaitingClients) : Prop :=
  ∀ ctx ∈ x.slave.clients, ∃ t, x.timers ctx.client.fdClient = some t ∧ Deadline conf ctx t

def Narrow (conf : ServerConf) (_ : WaitingClients) : Label → Prop
  | .mailReadReq _ env => env.addOk = true → conf.rtimeoMs < 2 ^ 31
  | .mailDestruct d env => env.addOk = true → Rearms conf env d →
    destructTimeleftMs conf env d < 2 ^ 31
  | _ => True

structure Inv (conf : ServerConf) (x : WaitingClients) : Prop where
  fds : x.fds.Nodup
  kept : x.DeadlinesKept conf
  past : ∀ ctx ∈ x.slave.clients, ctx.lasttimeMs ≤ x.now
  narrow : ∀ ctx ∈ x.slave.clients, ctx.timeleftMs < 2 ^ 31

variable {conf : ServerConf} {env : ClientEnv} {x : WaitingClients}

theorem expireAt_eq_iff (now : ℤ) {timeleftMs : ℤ} (h : 0 ≤ timeleftMs) :
    expireAt now timeleftMs = some (now + timeleftMs) ↔ timeleftMs < 2 ^ 31 := by
  lift timeleftMs to ℕ using h
  rw [← Nat.cast_ofNat, ← Nat.cast_pow, Nat.cast_lt, ← Word.narrow_natCast_eq_iff, expireAt]
  constructor
  · intro h
    split_ifs at h
    have hsum := Option.some.inj h
    omega
  · intro h
    rw [h]
    exact if_pos (Int.natCast_nonneg _)

theorem Inv.of_clients {clients : List ReadReqCtx} (hclients : x.slave.clients = clients)
    (hfds : (clients.map fun ctx => ctx.client.fdClient).Nodup)
    (hkept : ∀ ctx ∈ clients, ∃ t, x.timers ctx.client.fdClient = some t ∧ Deadline conf ctx t)
    (hpast : ∀ ctx ∈ clients, ctx.lasttimeMs ≤ x.now)
    (hnarrow : ∀ ctx ∈ clients, ctx.timeleftMs < 2 ^ 31) : x.Inv conf := by
  subst hclients
  exact ⟨hfds, hkept, hpast, hnarrow⟩

theorem regClient_clients (env : ClientEnv) (a : SlaveThread) (c : ClientReq) (timeleftMs : ℤ) :
    (SlaveThread.regClient env a c timeleftMs).clients =
      if env.addOk then ⟨c, timeleftMs, env.now⟩ :: a.clients else a.clients := by
  unfold SlaveThread.regClient
  split_ifs <;> rfl

theorem handleMsgDestruct_clients (conf : ServerConf) (env : ClientEnv) (a : SlaveThread)
    (d : ClientReq) : (SlaveThread.handleMsgDestruct conf env a d).clients =
      if Rearms conf env d then
        (if env.addOk then ⟨d, destructTimeleftMs conf env d, env.now⟩ :: a.clients else a.clients)
      else a.clients := by
  by_cases hrearms : Rearms conf env d
  · have hreg : SlaveThread.handleMsgDestruct conf env a d =
        SlaveThread.regClient env a d (destructTimeleftMs conf env d) :=
      (if_neg (not_le.mpr hrearms.1)).trans (if_neg (not_le.mpr hrearms.2))
    rw [if_pos hrearms, hreg, regClient_clients]
  · rw [if_neg hrearms]
    dsimp only [SlaveThread.handleMsgDestruct]
    split_ifs with hfd htime
    · rfl
    · rfl
    · exact absurd ⟨not_le.mp hfd, not_le.mp htime⟩ hrearms

theorem Inv.arm (h : x.Inv conf) (hnow : x.now ≤ env.now) {c : ClientReq}
    (hfresh : c.fdClient ∉ x.fds) {timeleftMs : ℤ} (hpos : 0 ≤ timeleftMs) (rearmed : Bool)
    (hbound : rearmed = true → env.now + timeleftMs <
      (c.fdClientStarttimeSec + conf.clientKeepaliveSec + 2) * 1000) {slave : SlaveThread}
    (hslave : slave.clients = if env.addOk then ⟨c, timeleftMs, env.now⟩ :: x.slave.clients
      else x.slave.clients) :
    let x' : WaitingClients := ⟨slave, addTimer env x.timers c.fdClient timeleftMs rearmed, env.now⟩
    (x'.DeadlinesKept conf → env.addOk = true → timeleftMs < 2 ^ 31) ∧
      ((env.addOk = true → timeleftMs < 2 ^ 31) → x'.Inv conf) := by
  intro x'
  have hother : ∀ ctx ∈ x.slave.clients, ∃ t, x'.timers ctx.client.fdClient = some t ∧
      Deadline conf ctx t := by
    intro ctx hctx
    obtain ⟨t, ht, hdeadline⟩ := h.kept ctx hctx
    have hne : ctx.client.fdClient ≠ c.fdClient := fun he =>
      hfresh (he ▸ List.mem_map_of_mem hctx)
    exact ⟨t, (Function.update_of_ne hne _ _).trans ht, hdeadline⟩
  have hpast : ∀ ctx ∈ x.slave.clients, ctx.lasttimeMs ≤ env.now := fun ctx hctx =>
    (h.past ctx hctx).trans hnow
  cases hadd : env.addOk with
  | false =>
    rw [hadd] at hslave
    have hclients : x'.slave.clients = x.slave.clients := hslave
    exact ⟨fun _ hfalse => (by cases hfalse), fun _ =>
      .of_clients hclients h.fds hother hpast h.narrow⟩
  | true =>
    rw [hadd] at hslave
    have hclients : x'.slave.clients = ⟨c, timeleftMs, env.now⟩ :: x.slave.clients := hslave
    have htimer : x'.timers c.fdClient =
        some ⟨expireAt env.now timeleftMs, env.now + timeleftMs, rearmed⟩ := by
      have hself : x'.timers c.fdClient = if env.addOk then
          some ⟨expireAt env.now timeleftMs, env.now + timeleftMs, rearmed⟩ else none :=
        Function.update_self _ _ _
      rw [hself, hadd]
      rfl
    constructor
    · intro hkept _
      obtain ⟨t, ht, hdeadline⟩ := hkept ⟨c, timeleftMs, env.now⟩ (by simp [hclients])
      obtain rfl := Option.some.inj (htimer.symm.trans ht)
      exact (expireAt_eq_iff env.now hpos).mp hdeadline.timer
    · intro hlt
      have hexpire := (expireAt_eq_iff env.now hpos).mpr (hlt rfl)
      refine .of_clients hclients (List.nodup_cons.mpr ⟨hfresh, h.fds⟩) ?_ ?_ ?_
      · exact List.forall_mem_cons.mpr ⟨⟨_, htimer, rfl, hexpire, hbound⟩, hother⟩
      · exact List.forall_mem_cons.mpr ⟨le_rfl, hpast⟩
      · exact List.forall_mem_cons.mpr ⟨hlt rfl, h.narrow⟩

theorem takeClient_perm {a a' : SlaveThread} {fd : ℤ} {ctx : ReadReqCtx}
    (ht : a.takeClient fd = some (ctx, a')) :
    ctx.client.fdClient = fd ∧ a.clients.Perm (ctx :: a'.clients) := by
  obtain ⟨ctx', hfind, he⟩ := Option.map_eq_some_iff.mp ht
  rw [Prod.mk.injEq] at he
  obtain ⟨rfl, rfl⟩ := he
  exact ⟨by simpa using List.find?_some hfind, List.perm_cons_eraseP_of_find? hfind⟩

structure Renewed (now : ℤ) (ctx ctx' : ReadReqCtx) : Prop where
  client : ctx'.client = ctx.client
  last : ctx'.lasttimeMs = now
  left : ctx'.timeleftMs = ctx.timeleftMs - (now - ctx.lasttimeMs)
  pos : 0 < ctx'.timeleftMs

theorem handleReadReq_pos {ctx : ReadReqCtx} (h : 0 < (SlaveThread.handleReadReq env ctx).1) :
    Renewed env.now ctx (SlaveThread.handleReadReq env ctx).2 := by
  simp only [SlaveThread.handleReadReq, ReadReqCtx.checkTimeout] at h ⊢
  by_cases htime : ctx.timeleftMs ≤ env.now - ctx.lasttimeMs
  · simp only [if_pos htime] at h
    split_ifs at h <;> simp_all
  · have hpos : 0 < ctx.timeleftMs - (env.now - ctx.lasttimeMs) := by omega
    simp only [if_neg htime] at h ⊢
    split_ifs at h ⊢ <;> first
      | exact ⟨rfl, rfl, rfl, hpos⟩
      | simp_all

theorem checkReadReq_spec (env : ClientEnv) (event : EventsDriver.Event) (sent : Bool)
    (ctx : ReadReqCtx) (a : SlaveThread) :
    (checkReadReq env event sent ctx a).1.clients =
        (checkReadReq env event sent ctx a).2.toList ++ a.clients ∧
      ∀ ctx' ∈ (checkReadReq env event sent ctx a).2, Renewed env.now ctx ctx' := by
  dsimp only [checkReadReq]
  split_ifs with hevent hzero hsent hpos
  · exact ⟨rfl, by simp⟩
  · exact ⟨rfl, by simp⟩
  · refine ⟨rfl, fun ctx' hctx' => ?_⟩
    obtain rfl := Option.some.inj hctx'
    exact handleReadReq_pos hpos
  · exact ⟨rfl, by simp⟩
  · exact ⟨rfl, by simp⟩

/-- The time that is left is cut by the time that passed, so `RegEvent` sets the same timer. -/
theorem Renewed.deadline {now : ℤ} {ctx ctx' : ReadReqCtx} {t : ClientTimer}
    (h : Renewed now ctx ctx') (ht : Deadline conf ctx t) (hlt : ctx'.timeleftMs < 2 ^ 31) :
    modTimer now ctx'.timeleftMs t = t ∧ Deadline conf ctx' t := by
  obtain ⟨hclient, hlast, hleft, hpos⟩ := h
  obtain ⟨hkept, hexpire, hbound⟩ := ht
  have hsame : now + ctx'.timeleftMs = t.armed := by omega
  refine ⟨?_, by rw [hlast, hsame], hexpire, ?_⟩
  · rw [modTimer, (expireAt_eq_iff now hpos.le).mpr hlt, hsame, Option.some_or, ← hexpire]
  · rw [hclient]
    exact hbound

theorem Inv.replace (h : x.Inv conf) {now fd : ℤ} (hnow : x.now ≤ now) {ctx : ReadReqCtx}
    {a slave : SlaveThread} (ht : x.slave.takeClient fd = some (ctx, a)) {o : Option ReadReqCtx}
    (hslave : slave.clients = o.toList ++ a.clients) (ho : ∀ ctx' ∈ o, Renewed now ctx ctx') :
    Inv conf ⟨slave, Function.update x.timers fd
      (o.bind fun ctx' => (x.timers fd).map (modTimer now ctx'.timeleftMs)), now⟩ := by
  obtain ⟨rfl, hperm⟩ := takeClient_perm ht
  have hctx : ctx ∈ x.slave.clients := hperm.symm.subset List.mem_cons_self
  have hmem : ∀ c ∈ a.clients, c ∈ x.slave.clients := fun c hc =>
    hperm.symm.subset (List.mem_cons_of_mem _ hc)
  have hfds : (x.slave.clients.map fun c => c.client.fdClient).Nodup := h.fds
  obtain ⟨hnot, hnodup⟩ := List.nodup_cons.mp ((hperm.map fun c => c.client.fdClient).nodup hfds)
  have hother : ∀ c ∈ a.clients, c.client.fdClient ≠ ctx.client.fdClient := fun c hc he =>
    hnot (List.mem_map.mpr ⟨c, hc, he⟩)
  have hrest : ∀ c ∈ a.clients, ∃ t, Function.update x.timers ctx.client.fdClient
      (o.bind fun ctx' => (x.timers ctx.client.fdClient).map (modTimer now ctx'.timeleftMs))
        c.client.fdClient = some t ∧ Deadline conf c t := by
    intro c hc
    rw [Function.update_of_ne (hother c hc)]
    exact h.kept c (hmem c hc)
  have hpast : ∀ c ∈ a.clients, c.lasttimeMs ≤ now := fun c hc => (h.past c (hmem c hc)).trans hnow
  have hnarrow : ∀ c ∈ a.clients, c.timeleftMs < 2 ^ 31 := fun c hc => h.narrow c (hmem c hc)
  cases o with
  | none =>
    exact .of_clients hslave hnodup hrest hpast hnarrow
  | some ctx' =>
    have hrenewed := ho ctx' rfl
    have hclient := hrenewed.client
    obtain ⟨t, htimer, hdeadline⟩ := h.kept ctx hctx
    have hlt : ctx'.timeleftMs < 2 ^ 31 := by
      have hleft := hrenewed.left
      have := h.past ctx hctx
      have := h.narrow ctx hctx
      omega
    obtain ⟨hmod, hdeadline'⟩ := hrenewed.deadline hdeadline hlt
    have hself : ∃ t', Function.update x.timers ctx.client.fdClient
        ((some ctx').bind fun c => (x.timers ctx.client.fdClient).map (modTimer now c.timeleftMs))
          ctx'.client.fdClient = some t' ∧ Deadline conf ctx' t' := by
      refine ⟨t, ?_, hdeadline'⟩
      rw [hclient, Function.update_self, Option.bind_some, htimer, Option.map_some, hmod]
    have hfresh : ctx'.client.fdClient ∉ a.clients.map fun c => c.client.fdClient :=
      hclient.symm ▸ hnot
    refine .of_clients hslave (List.nodup_cons.mpr ⟨hfresh, hnodup⟩) ?_ ?_ ?_
    · exact List.forall_mem_cons.mpr ⟨hself, hrest⟩
    · exact List.forall_mem_cons.mpr ⟨hrenewed.last.le, hpast⟩
    · exact List.forall_mem_cons.mpr ⟨hlt, hnarrow⟩

theorem Inv.tick (h : x.Inv conf) {now : ℤ} (hnow : x.now ≤ now) :
    Inv conf { x with now := now } :=
  ⟨h.fds, h.kept, fun ctx hctx => (h.past ctx hctx).trans hnow, h.narrow⟩

/-- The bound of a connection that is used again: at most a second is lost to the division. -/
theorem destruct_bound (hsec : env.nowSec = env.now / 1000) (d : ClientReq) :
    env.now + destructTimeleftMs conf env d <
      (d.fdClientStarttimeSec + conf.clientKeepaliveSec + 2) * 1000 := by
  have hmin : destructTimeleftMs conf env d ≤
      (d.fdClientStarttimeSec + conf.clientKeepaliveSec - env.nowSec + 1) * 1000 := min_le_left _ _
  have hdiv : env.now < (env.nowSec + 1) * 1000 := by omega
  omega

theorem Inv.next (hconf : 0 ≤ conf.rtimeoMs) (h : x.Inv conf) {l : Label} (hl : x.Enabled l) :
    ((x.next conf l).DeadlinesKept conf → Narrow conf x l) ∧
      (Narrow conf x l → (x.next conf l).Inv conf) := by
  cases l with
  | mailReadReq m env =>
    obtain ⟨⟨hnow, -⟩, hfresh⟩ := hl
    exact h.arm hnow (c := ⟨m.idProcedure, m.fdClient, m.fdClientStarttimeSec, _⟩) hfresh hconf
      false (fun hfalse => by cases hfalse) (regClient_clients env _ _ _)
  | mailDestruct d env =>
    obtain ⟨⟨hnow, hsec⟩, hfresh⟩ := hl
    have hclients := handleMsgDestruct_clients conf env x.slave d
    by_cases hrearms : Rearms conf env d
    · rw [if_pos hrearms] at hclients
      have harm := h.arm hnow hfresh hrearms.2.le true (fun _ => destruct_bound hsec d) hclients
      have hnext : x.next conf (.mailDestruct d env) =
          ⟨SlaveThread.handleMsgDestruct conf env x.slave d, addTimer env x.timers d.fdClient
            (destructTimeleftMs conf env d) true, env.now⟩ := by
        simp only [WaitingClients.next, handleMsgDestruct, if_pos hrearms]
      rw [hnext]
      exact ⟨fun hkept hadd _ => harm.1 hkept hadd, fun hlt => harm.2 fun hadd => hlt hadd hrearms⟩
    · rw [if_neg hrearms] at hclients
      have hnext : x.next conf (.mailDestruct d env) =
          ⟨SlaveThread.handleMsgDestruct conf env x.slave d, x.timers, env.now⟩ := by
        simp only [WaitingClients.next, handleMsgDestruct, if_neg hrearms]
      rw [hnext]
      refine ⟨fun _ _ hyes => absurd hyes hrearms, fun _ => ?_⟩
      exact .of_clients hclients h.fds h.kept (h.tick hnow).past h.narrow
  | readReq fd event env sent =>
    refine ⟨fun _ => trivial, fun _ => ?_⟩
    show (x.readReq env event sent fd).Inv conf
    unfold readReq
    cases ht : x.slave.takeClient fd with
    | none => exact h.tick hl.1
    | some q =>
      obtain ⟨hclients, hrenewed⟩ := checkReadReq_spec env event sent q.1 q.2
      exact h.replace hl.1 ht hclients hrenewed
  | cleanTimeout fd now =>
    refine ⟨fun _ => trivial, fun _ => ?_⟩
    show (x.cleanTimeout fd now).Inv conf
    unfold cleanTimeout
    cases ht : x.slave.takeClient fd with
    | none => exact h.tick hl.1
    | some q => exact h.replace hl.1 ht (o := none) rfl (by simp)

theorem inv_init (conf : ServerConf) (now : ℤ) : (init now).Inv conf :=
  ⟨List.nodup_nil, by simp [DeadlinesKept, init, SlaveThread.init],
    by simp [init, SlaveThread.init], by simp [init, SlaveThread.init]⟩

/-- In every run the deadlines and the timers of the waiting clients stay what they were when the
connections were armed, and below the bound of their keepalive, if and only if every connection
is armed with a time that is an `int`. -/
theorem deadlinesKept_iff (conf : ServerConf) (hconf : 0 ≤ conf.rtimeoMs) (now : ℤ)
    (ls : List Label) (hls : (machine conf).Admits (init now) ls) :
    (∀ n, ((machine conf).exec (init now) (ls.take n)).DeadlinesKept conf) ↔
      ((machine conf).guarded (Narrow conf)).Admits (init now) ls :=
  (machine conf).forall_take_iff_guarded (fun _ h => h.kept)
    (fun _ _ h hl => (h.next hconf hl).1) (fun _ _ h hl => (h.next hconf hl).2)
    (inv_init conf now) hls

def envAt (now readRet : ℤ) : ClientEnv := ⟨now, now / 1000, true, true, readRet, true, true⟩

def trickleRun : List Label :=
  [.mailReadReq ⟨1, 7, .kRapid, 1⟩ (envAt 1000 0), .readReq 7 .kIn (envAt 1050 20) true,
    .readReq 7 .kIn (envAt 1100 10) true, .readReq 7 .kIn (envAt 1110 0) true,
    .mailDestruct ⟨1, 7, 1, ⟨0, .kRapid, ()⟩⟩ (envAt 2500 0), .readReq 7 .kIn (envAt 2600 20) true]

instance (conf : ServerConf) (x : WaitingClients) : ∀ l, Decidable (Narrow conf x l)
  | .mailReadReq _ _ => inferInstanceAs (Decidable (_ → _))
  | .mailDestruct _ _ => inferInstanceAs (Decidable (_ → _ → _))
  | .readReq _ _ _ _ => inferInstanceAs (Decidable True)
  | .cleanTimeout _ _ => inferInstanceAs (Decidable True)

instance (conf : ServerConf) (x : WaitingClients) (l : Label) :
    Decidable ((machine conf).enabled x l) := inferInstanceAs (Decidable (x.Enabled l))

instance (conf : ServerConf) (x : WaitingClients) (l : Label) :
    Decidable (((machine conf).guarded (Narrow conf)).enabled x l) :=
  inferInstanceAs (Decidable (x.Enabled l ∧ Narrow conf x l))

theorem deadlinesKept_iff_trickleRun :
    (∀ n, ((machine ⟨16, 10, 5, 120⟩).exec (init 0) (trickleRun.take n)).DeadlinesKept
      ⟨16, 10, 5, 120⟩) ∧
    ((machine ⟨16, 10, 5, 120⟩).exec (init 0) trickleRun).timers 7 =
      some ⟨some 2620, 2620, true⟩ :=
  ⟨(deadlinesKept_iff ⟨16, 10, 5, 120⟩ (by decide) 0 trickleRun (by decide)).mpr (by decide),
    by decide⟩

def timerAfter (conf : ServerConf) (n : ℕ) : Option ℤ :=
  (((machine conf).exec (init 0) (trickleRun.take n)).timers 7).bind (·.expireTimeMs)

/-- A timeout of 2^31 ms is no `int`: the connection has no timer before the first partial read,
which sets one. -/
theorem wideTimeout_unarmed :
    (timerAfter ⟨16, 10, 5, 2 ^ 31⟩ 1 = none ∧
      timerAfter ⟨16, 10, 5, 2 ^ 31⟩ 2 = some (1000 + 2 ^ 31)) ∧
    ¬ ∀ (conf : ServerConf) (now : ℤ) (ls : List Label), 0 ≤ conf.rtimeoMs →
      (machine conf).Admits (init now) ls →
      ((machine conf).exec (init now) ls).DeadlinesKept conf := by
  refine ⟨by decide, fun h => ?_⟩
  obtain ⟨t, ht, hdeadline⟩ := h ⟨16, 10, 5, 2 ^ 31⟩ 0 (trickleRun.take 1) (by decide) (by decide)
    ⟨⟨1, 7, 1, ⟨0, .kRapid, ()⟩⟩, 2 ^ 31, 1000⟩ List.mem_cons_self
  have htimer : ((machine ⟨16, 10, 5, 2 ^ 31⟩).exec (init 0) (trickleRun.take 1)).timers 7 =
      some ⟨none, 1000 + 2 ^ 31, false⟩ := by decide
  obtain rfl := Option.some.inj (htimer.symm.trans ht)
  cases hdeadline.timer

end WaitingClients

end Magneto
