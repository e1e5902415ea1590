import Magneto.Session

/-!
# Configuration

`ConfNormal` and `ConfServices`, read from the JSON values that `CreateConf`
returns for the files `normal.conf` and `services.conf`. A dictionary lists its
entries in the order in which the hash map iterates over them. `inet_addr` and
`atoi` are parameters. Log lines are left out, except that `Init` returns the
text of the line that explains why it failed.
-/

namespace Magneto

inductive JsonType
  | null
  | bool (val : Bool)
  | int (val : Int64)
  | double
  | str (val : String)
  | list (val : List JsonType)
  | dict (val : List (String × JsonType))

def JsonType.get (json : JsonType) (key : String) : JsonType :=
  match json with
  | .dict val => (val.lookup key).getD .null
  | _ => .null

def sizeOf64 (v : Int64) : ℕ := v.toUInt64.toNat

structure AddrEnv where
  inetAddr : String → ℕ
  atoi : String → ℤ

def kInaddrNone : ℕ := 2 ^ 32 - 1

def htons (port : ℤ) : ℕ :=
  let n := (port % 2 ^ 16).toNat
  n % 256 * 256 + n / 256

def splitFirst (sep : Char) (s : String) : Option (String × String) :=
  match s.toList.dropWhile (· ≠ sep) with
  | [] => none
  | _ :: back => some (String.ofList (s.toList.takeWhile (· ≠ sep)), String.ofList back)

def Addr.assign (env : AddrEnv) (addr : String) : Option Addr :=
  match splitFirst ':' addr with
  | none => none
  | some (ip, port) =>
    if env.inetAddr ip = kInaddrNone then none
    else some ⟨env.inetAddr ip, htons (env.atoi port)⟩

/-- `PoolProtocols::GetCategory`, as it is built by default, without Thrift. -/
def getCategory (category : String) : Protocol.Category :=
  if category = "rapid" then .kRapid
  else if category = "ping" then .kPing
  else if category = "redis" then .kRedis
  else .kInvalid

def parseServiceTag (serviceTag : String) : Option (String × Protocol.Category) :=
  match splitFirst '|' serviceTag with
  | none => none
  | some (name, category) =>
    if name = "" then none
    else if getCategory category = .kInvalid then none
    else some (name, getCategory category)

namespace ServiceStrategy

def kDefaultStrategy : ServiceStrategy := .kWeight

def getServiceStrategy (serviceStrategy : String) : ServiceStrategy :=
  if serviceStrategy = "normal" then .kNormal
  else if serviceStrategy = "weight" then .kWeight
  else .kInvalid

end ServiceStrategy

namespace Confs

structure ListenAddr where
  name : String
  category : Protocol.Category
  addr : Option Addr

/-- All of `ConfNormal`; a session reads its timeouts only. -/
structure ConfNormal extends Magneto.ConfNormal where
  numSchedulers : ℕ
  numAgents : ℕ
  clientKeepaliveSec : ℤ
  maxNumClientsKeepalive : ℕ
  longConnKeepaliveSec : ℤ
  listenAddrs : List ListenAddr
  sizeSchedulerMailbox : ℕ
  sizeAgentMailbox : ℕ
  sizeStack : ℕ
  lowLatency : Bool
  defaultLongConns : ℕ
  defaultWeight : ℕ

namespace ConfNormal

def intField (conf : JsonType) (key : String) (valid : ℤ → Bool) : Except String Int64 :=
  match conf.get key with
  | .int v => if valid v.toInt then .ok v else .error ("fail_get_" ++ key)
  | _ => .error ("fail_get_" ++ key)

def listenAddr (env : AddrEnv) (entry : String × JsonType) : Except String ListenAddr :=
  match parseServiceTag entry.1, entry.2 with
  | some (name, category), .str addr => .ok ⟨name, category, Addr.assign env addr⟩
  | _, _ => .error ("invalid_listen_addr[" ++ entry.1 ++ "]")

def listenAddrsField (env : AddrEnv) (conf : JsonType) : Except String (List ListenAddr) :=
  match conf.get "listen_addrs" with
  | .dict val => val.mapM (listenAddr env)
  | _ => .error "fail_get_listen_addrs"

def dictOf (filedir : String) (conf : Option JsonType) : Except String JsonType :=
  match conf with
  | some (.dict val) => .ok (.dict val)
  | _ => .error ("fail_init_service_conf dir[" ++ filedir ++ "]")

def init (env : AddrEnv) (filedir : String) (conf : Option JsonType) :
    Except String ConfNormal := do
  let conf ← dictOf filedir conf
  let numSchedulers ← intField conf "num_schedulers" (0 < ·)
  let numAgents ← intField conf "num_agents" (0 < ·)
  let clientKeepaliveSec ← intField conf "client_keepalive_sec" (0 ≤ ·)
  let maxNumClientsKeepalive ← intField conf "max_num_clients_keepalive" (0 ≤ ·)
  let longConnKeepaliveSec ← intField conf "long_conn_keepalive_sec" (0 ≤ ·)
  let ctimeoMs ← intField conf "ctimeo_ms" (0 ≤ ·)
  let wtimeoMs ← intField conf "wtimeo_ms" (0 ≤ ·)
  let rtimeoMs ← intField conf "rtimeo_ms" (0 ≤ ·)
  let listenAddrs ← listenAddrsField env conf
  let sizeSchedulerMailbox ← intField conf "size_scheduler_mailbox" (0 < ·)
  let sizeAgentMailbox ← intField conf "size_agent_mailbox" (0 < ·)
  let sizeStack ← intField conf "size_stack" (0 < ·)
  let lowLatency ← intField conf "low_latency" (fun _ => true)
  let defaultLongConns ← intField conf "default_long_conns" (0 ≤ ·)
  let defaultWeight ← intField conf "default_weight" (0 < ·)
  return {
    numSchedulers := sizeOf64 numSchedulers
    numAgents := sizeOf64 numAgents
    clientKeepaliveSec := clientKeepaliveSec.toInt
    maxNumClientsKeepalive := sizeOf64 maxNumClientsKeepalive
    longConnKeepaliveSec := longConnKeepaliveSec.toInt
    ctimeoMs := ctimeoMs.toInt
    wtimeoMs := wtimeoMs.toInt
    rtimeoMs := rtimeoMs.toInt
    listenAddrs := listenAddrs
    sizeSchedulerMailbox := sizeOf64 sizeSchedulerMailbox
    sizeAgentMailbox := sizeOf64 sizeAgentMailbox
    sizeStack := sizeOf64 sizeStack
    lowLatency := lowLatency.toInt ≠ 0
    defaultLongConns := sizeOf64 defaultLongConns
    defaultWeight := sizeOf64 defaultWeight }

end ConfNormal

/-- The maps list their entries in the order of insertion; inserting a key that
is there changes nothing. -/
structure ConfServices where
  remotes : List Remote
  services : List (String × Service)
  servicesSets : List (String × List Service)
  setToServices : List (String × List String)

namespace ConfServices

def kNumRemotes : ℕ := 1000

def new : ConfServices := ⟨[], [], [], []⟩

def intOr {α : Type} (conf : JsonType) (key : String) (of : Int64 → α) (default : α) : α :=
  match conf.get key with
  | .int v => of v
  | _ => default

def insertRemote (c : ConfServices) (remote : Remote) : Option ConfServices :=
  if c.remotes.any (fun r => r.eqRemote remote) then some c
  else if kNumRemotes < c.remotes.length + 1 then none
  else some { c with remotes := remote :: c.remotes }

def buildRemote (env : AddrEnv) (normal : ConfNormal) (c : ConfServices) (conf : JsonType) :
    Option (Remote × ConfServices) :=
  match conf, conf.get "addr" with
  | .dict _, .str addr => do
    let addr ← Addr.assign env addr
    -- only the weight is checked
    if intOr conf "weight" Int64.toInt 0 < 0 then none
    else
      let remote : Remote := {
        addr := addr
        weight := intOr conf "weight" sizeOf64 normal.defaultWeight
        longConns := intOr conf "long_conns" sizeOf64 normal.defaultLongConns
        ctimeoMs := intOr conf "ctimeo_ms" Int64.toInt normal.ctimeoMs
        rtimeoMs := intOr conf "rtimeo_ms" Int64.toInt normal.rtimeoMs
        wtimeoMs := intOr conf "wtimeo_ms" Int64.toInt normal.wtimeoMs }
      let c ← c.insertRemote remote
      some (remote, c)
  | _, _ => none

def buildRemotes (env : AddrEnv) (normal : ConfNormal) :
    ConfServices → List JsonType → Option (List Remote × ConfServices)
  | c, [] => some ([], c)
  | c, conf :: confs => do
    let (remote, c) ← buildRemote env normal c conf
    let (remotes, c) ← buildRemotes env normal c confs
    some (remote :: remotes, c)

def strategyOf (serviceDesc : JsonType) : ServiceStrategy :=
  match serviceDesc.get "strategy" with
  | .str s =>
    match ServiceStrategy.getServiceStrategy s with
    | .kInvalid => ServiceStrategy.kDefaultStrategy
    | strategy => strategy
  | _ => ServiceStrategy.kDefaultStrategy

def retryOf (serviceDesc : JsonType) : ℕ :=
  match serviceDesc.get "retry" with
  | .int v => if 0 ≤ v.toInt then sizeOf64 v else 0
  | _ => 0

def buildService (env : AddrEnv) (normal : ConfNormal) (c : ConfServices) (no : ℕ)
    (serviceTag : String) (serviceDesc : JsonType) : Option (Service × ConfServices) := do
  let (name, category) ← parseServiceTag serviceTag
  match serviceDesc, serviceDesc.get "remotes" with
  | .dict _, .list confs =>
    let (remotes, c) ← buildRemotes env normal c confs
    let service : Service := {
      no := no
      name := name
      protocolCategory := category
      serviceStrategy := strategyOf serviceDesc
      remotes := remotes
      weightAll := (remotes.map Remote.weight).sum % 2 ^ 64
      retry := retryOf serviceDesc }
    some (service, c)
  | _, _ => none

def insertService (c : ConfServices) (service : Service) : ConfServices :=
  if (c.services.lookup service.name).isSome then c
  else { c with services := c.services ++ [(service.name, service)] }

def buildServices (env : AddrEnv) (normal : ConfNormal) :
    ConfServices → ℕ → List (String × JsonType) → Option ConfServices
  | c, _, [] => some c
  | c, no, (serviceTag, serviceDesc) :: rest => do
    let (service, c) ← buildService env normal c no serviceTag serviceDesc
    buildServices env normal (c.insertService service) (no + 1) rest

def findServices (c : ConfServices) : List JsonType → Option (List (String × Service))
  | [] => some []
  | .str name :: rest => do
    let service ← c.services.lookup name
    let found ← c.findServices rest
    some ((name, service) :: found)
  | _ => none

def buildServicesSets : ConfServices → List (String × JsonType) → Option ConfServices
  | c, [] => some c
  | c, (name, .list services) :: rest => do
    let found ← c.findServices services
    buildServicesSets
      { c with
        servicesSets := c.servicesSets ++ [(name, found.map Prod.snd)]
        setToServices := c.setToServices ++ [(name, found.map Prod.fst)] } rest
  | _, _ => none

def init (env : AddrEnv) (filedir : String) (normal : ConfNormal) (conf : Option JsonType) :
    Except String ConfServices :=
  match conf with
  | some (.dict val) =>
    match (JsonType.dict val).get "services" with
    | .dict services =>
      match buildServices env normal new 0 services, (JsonType.dict val).get "services_sets" with
      | none, _ => .error "fail_build_services"
      | some c, .dict sets => ((c.buildServicesSets sets).map .ok).getD
        (.error "fail_build_services_sets")
      | some _, _ => .error "fail_build_services_sets"
    | _ => .error "fail_build_services"
  | _ => .error ("fail_init_service_conf dir[" ++ filedir ++ "]")

end ConfServices

end Confs

end Magneto
