import Magneto.Confs
import Magneto.ConnsSafe

/-!
# Which configurations are safe

What `ConfServices::Init` builds from a configuration it accepts, and when every
service of it can be selected from. `BuildRemote_` checks the sign of a weight
only, so an accepted configuration may hold a service without remotes, weights
of zero, and negative timeouts or numbers of connections.
-/

namespace Magneto.Confs

open ConnsMgr

variable {env : AddrEnv} {normal : ConfNormal}

namespace ConfNormal

theorem bind_eq_ok {ε α β : Type} {x : Except ε α} {f : α → Except ε β} {b : β}
    (h : x >>= f = .ok b) : ∃ a, x = .ok a ∧ f a = .ok b := by
  cases x with
  | error e => cases h
  | ok a => exact ⟨a, rfl, h⟩

theorem intField_valid {conf : JsonType} {key : String} {valid : ℤ → Bool} {v : Int64}
    (h : intField conf key valid = .ok v) : valid v.toInt = true := by
  unfold intField at h
  split at h
  · split_ifs at h with hv
    obtain rfl := Except.ok.inj h
    exact hv
  · cases h

end ConfNormal

theorem sizeOf64_lt_iff (v : Int64) : sizeOf64 v < 2 ^ 63 ↔ 0 ≤ v.toInt := by
  have h := BitVec.toInt_eq_toNat_cond v.toBitVec
  have hlt := v.toBitVec.isLt
  have hnat : sizeOf64 v = v.toBitVec.toNat := rfl
  have hint : v.toInt = v.toBitVec.toInt := rfl
  rw [hnat, hint, h]
  split_ifs <;> omega

structure NonNegative (ctimeoMs rtimeoMs wtimeoMs : ℤ) (longConns : ℕ) : Prop where
  ctimeo : 0 ≤ ctimeoMs
  rtimeo : 0 ≤ rtimeoMs
  wtimeo : 0 ≤ wtimeoMs
  conns : longConns < 2 ^ 63

theorem ConfNormal.init_nonNegative {filedir : String} {conf : Option JsonType}
    (h : ConfNormal.init env filedir conf = .ok normal) :
    NonNegative normal.ctimeoMs normal.rtimeoMs normal.wtimeoMs normal.defaultLongConns := by
  unfold ConfNormal.init at h
  obtain ⟨_, -, h⟩ := bind_eq_ok h
  obtain ⟨_, -, h⟩ := bind_eq_ok h
  obtain ⟨_, -, h⟩ := bind_eq_ok h
  obtain ⟨_, -, h⟩ := bind_eq_ok h
  obtain ⟨_, -, h⟩ := bind_eq_ok h
  obtain ⟨_, -, h⟩ := bind_eq_ok h
  obtain ⟨_, hctimeo, h⟩ := bind_eq_ok h
  obtain ⟨_, hwtimeo, h⟩ := bind_eq_ok h
  obtain ⟨_, hrtimeo, h⟩ := bind_eq_ok h
  obtain ⟨_, -, h⟩ := bind_eq_ok h
  obtain ⟨_, -, h⟩ := bind_eq_ok h
  obtain ⟨_, -, h⟩ := bind_eq_ok h
  obtain ⟨_, -, h⟩ := bind_eq_ok h
  obtain ⟨_, -, h⟩ := bind_eq_ok h
  obtain ⟨_, hlong, h⟩ := bind_eq_ok h
  obtain ⟨_, -, h⟩ := bind_eq_ok h
  obtain rfl := Except.ok.inj h
  exact ⟨of_decide_eq_true (intField_valid hctimeo), of_decide_eq_true (intField_valid hrtimeo),
    of_decide_eq_true (intField_valid hwtimeo),
    (sizeOf64_lt_iff _).mpr (of_decide_eq_true (intField_valid hlong))⟩

namespace ConfServices

def addrOf (env : AddrEnv) (conf : JsonType) : Addr :=
  match conf.get "addr" with
  | .str addr => (Addr.assign env addr).getD ⟨0, 0⟩
  | _ => ⟨0, 0⟩

def weightOf (normal : ConfNormal) (conf : JsonType) : ℕ :=
  intOr conf "weight" sizeOf64 normal.defaultWeight

def remoteOf (env : AddrEnv) (normal : ConfNormal) (conf : JsonType) : Remote where
  addr := addrOf env conf
  weight := weightOf normal conf
  longConns := intOr conf "long_conns" sizeOf64 normal.defaultLongConns
  ctimeoMs := intOr conf "ctimeo_ms" Int64.toInt normal.ctimeoMs
  rtimeoMs := intOr conf "rtimeo_ms" Int64.toInt normal.rtimeoMs
  wtimeoMs := intOr conf "wtimeo_ms" Int64.toInt normal.wtimeoMs

def remoteConfs (serviceDesc : JsonType) : List JsonType :=
  match serviceDesc.get "remotes" with
  | .list confs => confs
  | _ => []

/-- No integer of the description that is stored unchecked is negative. -/
def SignsOk (conf : JsonType) : Prop :=
  ∀ key ∈ ["long_conns", "ctimeo_ms", "rtimeo_ms", "wtimeo_ms"], 0 ≤ intOr conf key Int64.toInt 0

/-- The service has a remote, its unchecked integers are not negative and, if its
selection is weighted, its weights are positive and small enough. -/
def SafeDesc (env : AddrEnv) (normal : ConfNormal) (serviceDesc : JsonType) : Prop :=
  remoteConfs serviceDesc ≠ [] ∧ (∀ conf ∈ remoteConfs serviceDesc, SignsOk conf) ∧
    (strategyOf serviceDesc = .kNormal ∨
      WeightsOk ((remoteConfs serviceDesc).map fun conf => (addrOf env conf, weightOf normal conf)))

def firstOfName : List String → List (String × JsonType) → List (String × JsonType)
  | _, [] => []
  | seen, entry :: rest =>
    match parseServiceTag entry.1 with
    | some (name, _) =>
      if name ∈ seen then firstOfName seen rest else entry :: firstOfName (seen ++ [name]) rest
    | none => firstOfName seen rest

def defined (conf : Option JsonType) : List (String × JsonType) :=
  match (conf.getD .null).get "services" with
  | .dict services => firstOfName [] services
  | _ => []

theorem strategyOf_cases (serviceDesc : JsonType) :
    strategyOf serviceDesc = .kNormal ∨ strategyOf serviceDesc = .kWeight := by
  unfold strategyOf
  split
  · next s _ =>
    cases h : ServiceStrategy.getServiceStrategy s with
    | kNormal => exact .inl rfl
    | kWeight => exact .inr rfl
    | kInvalid => exact .inr rfl
  · exact .inr rfl

variable {c c' : ConfServices} {conf serviceDesc : JsonType} {remote : Remote} {service : Service}

theorem insertRemote_services (h : c.insertRemote remote = some c') : c'.services = c.services := by
  unfold insertRemote at h
  split_ifs at h
  · obtain rfl := Option.some.inj h
    rfl
  · obtain rfl := Option.some.inj h
    rfl

theorem buildRemote_spec (h : buildRemote env normal c conf = some (remote, c')) :
    remote = remoteOf env normal conf ∧ c'.services = c.services := by
  unfold buildRemote at h
  split at h
  · next val addr haddr =>
    obtain ⟨a, ha, h⟩ := Option.bind_eq_some_iff.mp h
    split_ifs at h
    obtain ⟨c₁, hc, h⟩ := Option.bind_eq_some_iff.mp h
    obtain ⟨rfl, rfl⟩ := Prod.mk.inj (Option.some.inj h)
    have hof : addrOf env (.dict val) = a := by simp only [addrOf, haddr, ha, Option.getD_some]
    exact ⟨by rw [remoteOf, hof, weightOf], insertRemote_services hc⟩
  · cases h

theorem buildRemotes_spec {confs : List JsonType} {remotes : List Remote}
    (h : buildRemotes env normal c confs = some (remotes, c')) :
    remotes = confs.map (remoteOf env normal) ∧ c'.services = c.services := by
  induction confs generalizing c remotes with
  | nil =>
    obtain ⟨rfl, rfl⟩ := Prod.mk.inj (Option.some.inj h)
    exact ⟨rfl, rfl⟩
  | cons conf confs ih =>
    obtain ⟨⟨remote, c₁⟩, hremote, h⟩ := Option.bind_eq_some_iff.mp h
    obtain ⟨⟨rest, c₂⟩, hrest, h⟩ := Option.bind_eq_some_iff.mp h
    obtain ⟨rfl, rfl⟩ := Prod.mk.inj (Option.some.inj h)
    obtain ⟨rfl, hc₁⟩ := buildRemote_spec hremote
    obtain ⟨rfl, hc₂⟩ := ih hrest
    exact ⟨rfl, hc₂.trans hc₁⟩

structure BuiltFrom (env : AddrEnv) (normal : ConfNormal) (serviceDesc : JsonType)
    (service : Service) : Prop where
  remotes : service.remotes = (remoteConfs serviceDesc).map (remoteOf env normal)
  weightAll : service.weightAll = (service.remotes.map Remote.weight).sum % 2 ^ 64
  strategy : service.serviceStrategy = strategyOf serviceDesc

theorem buildService_spec {no : ℕ} {serviceTag : String}
    (h : buildService env normal c no serviceTag serviceDesc = some (service, c')) :
    BuiltFrom env normal serviceDesc service ∧ c'.services = c.services ∧
      (parseServiceTag serviceTag).map Prod.fst = some service.name := by
  obtain ⟨⟨name, category⟩, hname, h⟩ := Option.bind_eq_some_iff.mp h
  dsimp only at h
  split at h
  · next confs hconfs =>
    obtain ⟨⟨remotes, c₁⟩, hremotes, h⟩ := Option.bind_eq_some_iff.mp h
    obtain ⟨rfl, rfl⟩ := Prod.mk.inj (Option.some.inj h)
    obtain ⟨hmap, hc⟩ := buildRemotes_spec hremotes
    refine ⟨⟨?_, rfl, rfl⟩, hc, by rw [hname, Option.map_some]⟩
    rw [remoteConfs, hconfs]
    exact hmap
  · cases h

theorem lookup_isSome_iff (l : List (String × Service)) (name : String) :
    (l.lookup name).isSome ↔ name ∈ l.map Prod.fst := by
  induction l with
  | nil => simp
  | cons x l ih =>
    rw [List.lookup_cons, List.map_cons, List.mem_cons, ← ih]
    by_cases h : name = x.1
    · simp [h]
    · simp [h, beq_false_of_ne h]

theorem insertService_services (c : ConfServices) (service : Service) :
    (c.insertService service).services =
      if service.name ∈ c.services.map Prod.fst then c.services
      else c.services ++ [(service.name, service)] := by
  simp only [insertService, lookup_isSome_iff]
  split_ifs <;> rfl

theorem buildServices_spec {no : ℕ} {entries : List (String × JsonType)}
    (h : buildServices env normal c no entries = some c') :
    ∃ built, c'.services = c.services ++ built ∧
      List.Forall₂ (fun entry x => BuiltFrom env normal entry.2 x.2)
        (firstOfName (c.services.map Prod.fst) entries) built := by
  induction entries generalizing c no with
  | nil =>
    obtain rfl := Option.some.inj h
    exact ⟨[], (List.append_nil _).symm, .nil⟩
  | cons entry entries ih =>
    obtain ⟨⟨service, c₁⟩, hservice, h⟩ := Option.bind_eq_some_iff.mp h
    obtain ⟨hbuilt, hc₁, hname⟩ := buildService_spec hservice
    obtain ⟨⟨name, category⟩, hparse, hname⟩ := Option.map_eq_some_iff.mp hname
    dsimp only at hname
    subst hname
    obtain ⟨built, hservices, hall⟩ := ih h
    rw [insertService_services, hc₁] at hservices hall
    simp only [firstOfName, hparse]
    by_cases hmem : service.name ∈ c.services.map Prod.fst
    · rw [if_pos hmem] at hservices hall ⊢
      exact ⟨built, hservices, hall⟩
    · rw [if_neg hmem] at hservices hall ⊢
      refine ⟨(service.name, service) :: built, ?_, .cons hbuilt ?_⟩
      · rw [hservices, List.append_assoc, List.singleton_append]
      · rwa [List.map_append] at hall

theorem buildServicesSets_services {sets : List (String × JsonType)}
    (h : c.buildServicesSets sets = some c') : c'.services = c.services := by
  induction sets generalizing c with
  | nil =>
    obtain rfl := Option.some.inj h
    rfl
  | cons entry sets ih =>
    obtain ⟨name, val⟩ := entry
    cases val with
    | list services =>
      obtain ⟨found, -, h⟩ := Option.bind_eq_some_iff.mp h
      simpa using ih h
    | _ => cases h

/-- What `Init` leaves: one service for every entry that the file defines. -/
theorem init_spec {filedir : String} {conf : Option JsonType}
    (h : init env filedir normal conf = .ok c) :
    List.Forall₂ (fun entry x => BuiltFrom env normal entry.2 x.2) (defined conf) c.services := by
  unfold init at h
  split at h
  · next val =>
    split at h
    · next services hservices =>
      split at h
      · cases h
      · next c₁ sets hbuild hsets =>
        obtain ⟨built, heq, hall⟩ := buildServices_spec hbuild
        cases hs : c₁.buildServicesSets sets with
        | none =>
          rw [hs] at h
          cases h
        | some c₂ =>
          rw [hs] at h
          obtain rfl := Except.ok.inj h
          rw [buildServicesSets_services hs, heq]
          simpa only [defined, Option.getD_some, hservices, new, List.nil_append,
            List.map_nil] using hall
      · cases h
    · cases h
  · cases h

theorem intOr_nonneg_iff {key : String} {default : ℤ} (hdefault : 0 ≤ default) :
    0 ≤ intOr conf key Int64.toInt default ↔ 0 ≤ intOr conf key Int64.toInt 0 := by
  unfold intOr
  split
  · rfl
  · exact iff_of_true hdefault le_rfl

theorem intOr_sizeOf64_lt_iff {key : String} {default : ℕ} (hdefault : default < 2 ^ 63) :
    intOr conf key sizeOf64 default < 2 ^ 63 ↔ 0 ≤ intOr conf key Int64.toInt 0 := by
  unfold intOr
  split
  · exact sizeOf64_lt_iff _
  · exact iff_of_true hdefault le_rfl

theorem remoteOf_nonNegative_iff (hnormal : NonNegative normal.ctimeoMs normal.rtimeoMs
    normal.wtimeoMs normal.defaultLongConns) (conf : JsonType) :
    NonNegative (remoteOf env normal conf).ctimeoMs (remoteOf env normal conf).rtimeoMs
      (remoteOf env normal conf).wtimeoMs (remoteOf env normal conf).longConns ↔ SignsOk conf := by
  simp only [SignsOk, List.forall_mem_cons]
  rw [← intOr_sizeOf64_lt_iff hnormal.conns, ← intOr_nonneg_iff hnormal.ctimeo,
    ← intOr_nonneg_iff hnormal.rtimeo, ← intOr_nonneg_iff hnormal.wtimeo]
  refine ⟨fun h => ⟨h.conns, h.ctimeo, h.rtimeo, h.wtimeo, List.forall_mem_nil _⟩, ?_⟩
  rintro ⟨hconns, hctimeo, hrtimeo, hwtimeo, -⟩
  exact ⟨hctimeo, hrtimeo, hwtimeo, hconns⟩

structure Safe (service : Service) : Prop where
  select : SafeToSelect service
  signs : ∀ r ∈ service.remotes, NonNegative r.ctimeoMs r.rtimeoMs r.wtimeoMs r.longConns

theorem BuiltFrom.safe_iff (h : BuiltFrom env normal serviceDesc service)
    (hnormal : NonNegative normal.ctimeoMs normal.rtimeoMs normal.wtimeoMs
      normal.defaultLongConns) : Safe service ↔ SafeDesc env normal serviceDesc := by
  have hsigns : (∀ r ∈ service.remotes, NonNegative r.ctimeoMs r.rtimeoMs r.wtimeoMs r.longConns) ↔
      ∀ conf ∈ remoteConfs serviceDesc, SignsOk conf := by
    simp only [h.remotes, List.forall_mem_map, remoteOf_nonNegative_iff hnormal]
  have hweights : addrWeights service.remotes =
      (remoteConfs serviceDesc).map fun conf => (addrOf env conf, weightOf normal conf) := by
    rw [addrWeights, h.remotes, List.map_map]
    rfl
  have hnil : service.remotes ≠ [] ↔ remoteConfs serviceDesc ≠ [] := by
    rw [h.remotes, ne_eq, List.map_eq_nil_iff]
  have hstrategy : (strategyOf serviceDesc = .kNormal ∨ strategyOf serviceDesc = .kWeight ∧
      WeightsOk (addrWeights service.remotes)) ↔ (strategyOf serviceDesc = .kNormal ∨
        WeightsOk (addrWeights service.remotes)) := by
    rcases strategyOf_cases serviceDesc with hs | hs <;> simp [hs]
  have hsplit : Safe service ↔ SafeToSelect service ∧ ∀ r ∈ service.remotes,
      NonNegative r.ctimeoMs r.rtimeoMs r.wtimeoMs r.longConns :=
    ⟨fun h => ⟨h.select, h.signs⟩, fun h => ⟨h.1, h.2⟩⟩
  rw [hsplit, safeToSelect_iff h.weightAll, hsigns, h.strategy, hnil, hstrategy, hweights, SafeDesc]
  constructor
  · rintro ⟨⟨hne, hw⟩, hs⟩
    exact ⟨hne, hs, hw⟩
  · rintro ⟨hne, hs, hw⟩
    exact ⟨⟨hne, hw⟩, hs⟩

theorem forall_of_forall₂ {α β : Type} {R : α → β → Prop} {p : α → Prop} {q : β → Prop}
    {l : List α} {l' : List β} (h : List.Forall₂ R l l') (hpq : ∀ a b, R a b → (q b ↔ p a)) :
    (∀ b ∈ l', q b) ↔ ∀ a ∈ l, p a := by
  induction h with
  | nil => simp
  | cons hab _ ih => rw [List.forall_mem_cons, List.forall_mem_cons, hpq _ _ hab, ih]

/-- An accepted configuration is safe to select from exactly when the description
of every service it defines is. -/
theorem init_safe_iff (env : AddrEnv) (filedir : String) (normalConf servicesConf : Option JsonType)
    (normal : ConfNormal) (c : ConfServices)
    (hnormal : ConfNormal.init env filedir normalConf = .ok normal)
    (hservices : init env filedir normal servicesConf = .ok c) :
    (∀ x ∈ c.services, Safe x.2) ↔
      ∀ entry ∈ defined servicesConf, SafeDesc env normal entry.2 :=
  forall_of_forall₂ (init_spec hservices) fun _ _ hbuilt =>
    hbuilt.safe_iff (ConfNormal.init_nonNegative hnormal)

def localEnv : AddrEnv where
  inetAddr ip := if ip = "127.0.0.1" then 16777343 else kInaddrNone
  atoi port := if port = "6610" then 6610 else 0

def sampleNormal : JsonType := .dict [("num_schedulers", .int 2), ("num_agents", .int 2),
  ("client_keepalive_sec", .int 100), ("max_num_clients_keepalive", .int 1000),
  ("long_conn_keepalive_sec", .int 120), ("ctimeo_ms", .int 120), ("wtimeo_ms", .int 120),
  ("rtimeo_ms", .int 120), ("listen_addrs", .dict []), ("size_scheduler_mailbox", .int 1000),
  ("size_agent_mailbox", .int 1000), ("size_stack", .int 1000), ("low_latency", .int 1),
  ("default_long_conns", .int 50), ("default_weight", .int 50)]

def normalOf : ConfNormal where
  ctimeoMs := 120
  wtimeoMs := 120
  rtimeoMs := 120
  numSchedulers := 2
  numAgents := 2
  clientKeepaliveSec := 100
  maxNumClientsKeepalive := 1000
  longConnKeepaliveSec := 120
  listenAddrs := []
  sizeSchedulerMailbox := 1000
  sizeAgentMailbox := 1000
  sizeStack := 1000
  lowLatency := true
  defaultLongConns := 50
  defaultWeight := 50

def localRemote (weight : ℕ) : Remote := ⟨⟨16777343, 53785⟩, weight, 50, 120, 120, 120⟩

def oneRemote (entries : List (String × JsonType)) : JsonType :=
  .dict [("services", .dict [("moon|rapid", .dict [("remotes",
    .list [.dict (("addr", .str "127.0.0.1:6610") :: entries)])])]), ("services_sets", .dict [])]

def moon (weight : ℕ) : Service := ⟨0, "moon", .kRapid, .kWeight, [localRemote weight], weight, 0⟩

theorem init_oneRemote_default :
    init localEnv "conf" normalOf (some (oneRemote [])) =
      .ok ⟨[localRemote 50], [("moon", moon 50)], [], []⟩ := by rfl

theorem init_oneRemote_zero :
    init localEnv "conf" normalOf (some (oneRemote [("weight", .int 0)])) =
      .ok ⟨[localRemote 0], [("moon", moon 0)], [], []⟩ := by rfl

theorem init_safe_iff_oneRemote :
    ConfNormal.init localEnv "conf" (some sampleNormal) = .ok normalOf ∧
      ∀ x ∈ [("moon", moon 50)], Safe x.2 := by
  have hnormal : ConfNormal.init localEnv "conf" (some sampleNormal) = .ok normalOf := by rfl
  refine ⟨hnormal, (init_safe_iff localEnv "conf" (some sampleNormal) (some (oneRemote []))
    normalOf _ hnormal init_oneRemote_default).mpr ?_⟩
  have hdefined : defined (some (oneRemote [])) = [("moon|rapid", .dict [("remotes",
    .list [.dict [("addr", .str "127.0.0.1:6610")]])])] := by rfl
  rw [hdefined, List.forall_mem_singleton]
  refine ⟨List.cons_ne_nil _ _, ?_, .inr ?_⟩
  · rintro conf (_ | ⟨_, ⟨⟩⟩)
    unfold SignsOk
    decide
  · exact ⟨by decide, by decide⟩

/-- A remote of weight zero is accepted, and the selection divides by zero. -/
theorem init_accepts_weight_zero :
    ConfNormal.init localEnv "conf" (some sampleNormal) = .ok normalOf ∧
      init localEnv "conf" normalOf (some (oneRemote [("weight", .int 0)])) =
        .ok ⟨[localRemote 0], [("moon", moon 0)], [], []⟩ ∧ ¬ Safe (moon 0) := by
  refine ⟨by rfl, init_oneRemote_zero, fun h => ?_⟩
  obtain ⟨ref, r, href, -⟩ := h.select
    (withMarks [(localRemote 0).addr] fun _ => 100)
    (withMarks_healthOk (List.nodup_singleton _) fun _ _ => ⟨by decide, le_rfl⟩)
    (by decide) [] (by decide) 0 (by decide)
  have hnone :
      ((withMarks [(localRemote 0).addr] fun _ => 100).getRemote (moon 0) [] 0).1 = none := by
    decide
  rw [hnone] at href
  cases href

end ConfServices

end Magneto.Confs
