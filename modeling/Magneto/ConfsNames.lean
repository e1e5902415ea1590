import Magneto.ConfsSafe
import Magneto.Lib.KeyedList

/-!
# Reaching the configured services

`services_` has the name as its key, the dictionary of the file the name and the
protocol. `insert` keeps the service that is there, so of two entries with one
name the second is built and lost.
-/

namespace Magneto.Confs.ConfServices

variable {env : AddrEnv} {normal : ConfNormal}

def getService (c : ConfServices) (service : String) : Option Service := c.services.lookup service

def getServicesSet (c : ConfServices) (servicesSet : String) : Option (List Service) :=
  c.servicesSets.lookup servicesSet

def getServiceNames (c : ConfServices) (servicesSet : String) : Option (List String) :=
  c.setToServices.lookup servicesSet

def entries (conf : Option JsonType) (key : String) : List (String × JsonType) :=
  match (conf.getD .null).get key with
  | .dict val => val
  | _ => []

/-- The keys of a dictionary of the file are distinct, as those of a hash map are. -/
def KeysOk (conf : Option JsonType) : Prop :=
  ∀ key ∈ ["services", "services_sets"], ((entries conf key).map Prod.fst).Nodup

def nameOf (serviceTag : String) : Option String := (parseServiceTag serviceTag).map Prod.fst

def serviceFor (c : ConfServices) (serviceTag : String) : Option Service :=
  (nameOf serviceTag).bind c.getService

def Configures (env : AddrEnv) (normal : ConfNormal) (entry : String × JsonType)
    (service : Service) : Prop :=
  parseServiceTag entry.1 = some (service.name, service.protocolCategory) ∧
    service.remotes = (remoteConfs entry.2).map (remoteOf env normal)

def SetFound (c : ConfServices) (entry : String × JsonType) : Prop :=
  ∃ names set, entry.2 = .list (names.map .str) ∧ c.getServicesSet entry.1 = some set ∧
    c.getServiceNames entry.1 = some names ∧ set.map Service.name = names ∧
    set.map some = names.map c.getService

structure Reachable (env : AddrEnv) (normal : ConfNormal) (conf : Option JsonType)
    (c : ConfServices) : Prop where
  found : ∀ entry ∈ entries conf "services",
    ∃ service, c.serviceFor entry.1 = some service ∧ Configures env normal entry service
  numbers : ∀ e₁ ∈ entries conf "services", ∀ e₂ ∈ entries conf "services", e₁.1 ≠ e₂.1 →
    (c.serviceFor e₁.1).map Service.no ≠ (c.serviceFor e₂.1).map Service.no
  sets : ∀ entry ∈ entries conf "services_sets", c.SetFound entry

def NamesDistinct (conf : Option JsonType) : Prop :=
  ((entries conf "services").map fun entry => nameOf entry.1).Nodup

section Build

variable {c c' : ConfServices} {serviceDesc : JsonType} {service : Service}

def SameSets (c c' : ConfServices) : Prop :=
  c'.servicesSets = c.servicesSets ∧ c'.setToServices = c.setToServices

theorem SameSets.trans {c'' : ConfServices} (h : SameSets c c') (h' : SameSets c' c'') :
    SameSets c c'' :=
  ⟨h'.1.trans h.1, h'.2.trans h.2⟩

theorem buildRemote_sameSets {conf : JsonType} {remote : Remote}
    (h : buildRemote env normal c conf = some (remote, c')) : SameSets c c' := by
  unfold buildRemote at h
  split at h
  · obtain ⟨addr, -, h⟩ := Option.bind_eq_some_iff.mp h
    split_ifs at h
    obtain ⟨c₁, hc, h⟩ := Option.bind_eq_some_iff.mp h
    obtain ⟨-, rfl⟩ := Prod.mk.inj (Option.some.inj h)
    unfold insertRemote at hc
    split_ifs at hc
    · obtain rfl := Option.some.inj hc
      exact ⟨rfl, rfl⟩
    · obtain rfl := Option.some.inj hc
      exact ⟨rfl, rfl⟩
  · cases h

theorem buildRemotes_sameSets {confs : List JsonType} {remotes : List Remote}
    (h : buildRemotes env normal c confs = some (remotes, c')) : SameSets c c' := by
  induction confs generalizing c remotes with
  | nil =>
    obtain ⟨-, rfl⟩ := Prod.mk.inj (Option.some.inj h)
    exact ⟨rfl, rfl⟩
  | cons conf confs ih =>
    obtain ⟨⟨remote, c₁⟩, hremote, h⟩ := Option.bind_eq_some_iff.mp h
    obtain ⟨⟨rest, c₂⟩, hrest, h⟩ := Option.bind_eq_some_iff.mp h
    obtain ⟨-, rfl⟩ := Prod.mk.inj (Option.some.inj h)
    exact (buildRemote_sameSets hremote).trans (ih hrest)

theorem buildService_made {no : ℕ} {serviceTag : String}
    (h : buildService env normal c no serviceTag serviceDesc = some (service, c')) :
    Configures env normal (serviceTag, serviceDesc) service ∧ service.no = no ∧
      SameSets c c' := by
  obtain ⟨hbuilt, -, -⟩ := buildService_spec h
  obtain ⟨⟨name, category⟩, hname, h⟩ := Option.bind_eq_some_iff.mp h
  dsimp only at h
  split at h
  · obtain ⟨⟨remotes, c₁⟩, hremotes, h⟩ := Option.bind_eq_some_iff.mp h
    obtain ⟨rfl, rfl⟩ := Prod.mk.inj (Option.some.inj h)
    exact ⟨⟨hname, hbuilt.remotes⟩, rfl, buildRemotes_sameSets hremotes⟩
  · cases h

theorem insertService_sameSets (c : ConfServices) (service : Service) :
    SameSets c (c.insertService service) := by
  unfold insertService
  split_ifs
  · exact ⟨rfl, rfl⟩
  · exact ⟨rfl, rfl⟩

theorem getService_insertService (c : ConfServices) (service : Service) (name : String) :
    (c.insertService service).getService name =
      (c.getService name).or (if service.name = name then some service else none) := by
  unfold getService insertService
  split_ifs with hsome hname hname
  · subst hname
    obtain ⟨s, hs⟩ := Option.isSome_iff_exists.mp hsome
    rw [hs, Option.some_or]
  · rw [Option.or_none]
  · subst hname
    rw [List.lookup_append, List.lookup_cons_self]
  · rw [List.lookup_append, List.lookup_cons, beq_false_of_ne (Ne.symm hname), List.lookup_nil]

theorem buildServices_made {no : ℕ} {services : List (String × JsonType)}
    (h : buildServices env normal c no services = some c') :
    ∃ made, List.Forall₂ (Configures env normal) services made ∧
      made.map Service.no = List.range' no services.length ∧ SameSets c c' ∧
      ∀ name, c'.getService name =
        (c.getService name).or (KeyedList.get Service.name made name) := by
  induction services generalizing c no with
  | nil =>
    obtain rfl := Option.some.inj h
    exact ⟨[], .nil, rfl, ⟨rfl, rfl⟩, fun name => (Option.or_none).symm⟩
  | cons entry services ih =>
    obtain ⟨⟨service, c₁⟩, hservice, h⟩ := Option.bind_eq_some_iff.mp h
    obtain ⟨-, hc₁, -⟩ := buildService_spec hservice
    obtain ⟨hmade, hno, hsets⟩ := buildService_made hservice
    obtain ⟨made, hall, hnos, hsets', hget⟩ := ih h
    refine ⟨service :: made, .cons hmade hall, ?_, ?_, fun name => ?_⟩
    · rw [List.map_cons, hno, hnos, List.length_cons, List.range'_succ]
    · exact (hsets.trans (insertService_sameSets c₁ service)).trans hsets'
    · rw [hget, getService_insertService, KeyedList.get_cons, Option.or_assoc]
      congr 1
      · rw [getService, hc₁, getService]
      · split_ifs
        · rw [Option.some_or]
        · rw [Option.none_or]

theorem findServices_found {services : List JsonType} {found : List (String × Service)}
    (h : c.findServices services = some found) :
    services = found.map (fun x => .str x.1) ∧ ∀ x ∈ found, c.getService x.1 = some x.2 := by
  induction services generalizing found with
  | nil =>
    obtain rfl := Option.some.inj h
    exact ⟨rfl, List.forall_mem_nil _⟩
  | cons json services ih =>
    cases json with
    | str name =>
      obtain ⟨service, hservice, h⟩ := Option.bind_eq_some_iff.mp h
      obtain ⟨rest, hrest, h⟩ := Option.bind_eq_some_iff.mp h
      obtain rfl := Option.some.inj h
      obtain ⟨hmap, hfound⟩ := ih hrest
      exact ⟨by rw [List.map_cons, ← hmap], List.forall_mem_cons.mpr ⟨hservice, hfound⟩⟩
    | _ => cases h

theorem buildServicesSets_found {sets : List (String × JsonType)}
    (h : c.buildServicesSets sets = some c') :
    ∃ built : List (String × List (String × Service)),
      sets = built.map (fun x => (x.1, .list (x.2.map fun y => .str y.1))) ∧
      (∀ x ∈ built, ∀ y ∈ x.2, c.getService y.1 = some y.2) ∧
      c'.servicesSets = c.servicesSets ++ built.map (fun x => (x.1, x.2.map Prod.snd)) ∧
      c'.setToServices = c.setToServices ++ built.map (fun x => (x.1, x.2.map Prod.fst)) := by
  induction sets generalizing c with
  | nil =>
    obtain rfl := Option.some.inj h
    exact ⟨[], rfl, List.forall_mem_nil _, by simp, by simp⟩
  | cons entry sets ih =>
    obtain ⟨name, val⟩ := entry
    cases val with
    | list services =>
      obtain ⟨found, hfound, h⟩ := Option.bind_eq_some_iff.mp h
      obtain ⟨hmap, hget⟩ := findServices_found hfound
      obtain ⟨built, hsets, hall, hset, hto⟩ := ih h
      refine ⟨(name, found) :: built, ?_, List.forall_mem_cons.mpr ⟨hget, hall⟩, ?_, ?_⟩
      · rw [List.map_cons, ← hsets, ← hmap]
      · rw [hset, List.map_cons, List.append_assoc, List.singleton_append]
      · rw [hto, List.map_cons, List.append_assoc, List.singleton_append]
    | _ => cases h

end Build

theorem lookup_map_of_mem {α β : Type} {f : α → β} {l : List (String × α)} {x : String × α}
    (hl : (l.map Prod.fst).Nodup) (hx : x ∈ l) :
    (l.map fun y => (y.1, f y.2)).lookup x.1 = some (f x.2) := by
  induction l with
  | nil => cases hx
  | cons y l ih =>
    obtain ⟨hy, hl⟩ := List.nodup_cons.mp hl
    rcases List.mem_cons.mp hx with rfl | hx
    · rw [List.map_cons, List.lookup_cons_self]
    · have hne : x.1 ≠ y.1 := fun he => hy (he ▸ List.mem_map_of_mem hx)
      rw [List.map_cons, List.lookup_cons, beq_false_of_ne hne]
      exact ih hl hx

theorem init_cases {filedir : String} {conf : Option JsonType} {c : ConfServices}
    (h : init env filedir normal conf = .ok c) :
    ∃ c₁, buildServices env normal new 0 (entries conf "services") = some c₁ ∧
      c₁.buildServicesSets (entries conf "services_sets") = some c := by
  unfold init at h
  split at h
  · next val =>
    split at h
    · next services hservices =>
      split at h
      · cases h
      · next c₁ sets hbuild hsets =>
        cases hs : c₁.buildServicesSets sets with
        | none =>
          rw [hs] at h
          cases h
        | some c₂ =>
          rw [hs] at h
          obtain rfl := Except.ok.inj h
          refine ⟨c₁, ?_, ?_⟩
          · simpa only [entries, Option.getD_some, hservices] using hbuild
          · simpa only [entries, Option.getD_some, hsets] using hs
      · cases h
    · cases h
  · cases h

section Init

variable {filedir : String} {conf : Option JsonType} {c : ConfServices}

theorem init_made (h : init env filedir normal conf = .ok c) :
    ∃ made, List.Forall₂ (Configures env normal) (entries conf "services") made ∧
      (made.map Service.no).Nodup ∧
      ∀ name, c.getService name = KeyedList.get Service.name made name := by
  obtain ⟨c₁, hbuild, hsets⟩ := init_cases h
  obtain ⟨made, hall, hnos, -, hget⟩ := buildServices_made hbuild
  refine ⟨made, hall, hnos ▸ List.nodup_range', fun name => ?_⟩
  rw [getService, buildServicesSets_services hsets]
  exact (hget name).trans (Option.none_or)

theorem init_sets (h : init env filedir normal conf = .ok c) (hkeys : KeysOk conf) :
    ∀ entry ∈ entries conf "services_sets", c.SetFound entry := by
  obtain ⟨made, -, -, hname⟩ := init_made h
  obtain ⟨c₁, hbuild, hsets⟩ := init_cases h
  obtain ⟨-, -, -, hnew, -⟩ := buildServices_made hbuild
  obtain ⟨built, heq, hall, hset, hto⟩ := buildServicesSets_found hsets
  have hget : c.getService = c₁.getService := by
    funext name
    rw [getService, buildServicesSets_services hsets, getService]
  have hdup : (built.map Prod.fst).Nodup := by
    have hnodup := hkeys "services_sets" (by decide)
    rwa [heq, List.map_map] at hnodup
  rw [hnew.1] at hset
  rw [hnew.2] at hto
  rw [heq]
  intro entry hentry
  obtain ⟨x, hx, rfl⟩ := List.mem_map.mp hentry
  refine ⟨x.2.map Prod.fst, x.2.map Prod.snd, ?_, ?_, ?_, ?_, ?_⟩
  · rw [List.map_map]
    rfl
  · rw [getServicesSet, hset]
    exact lookup_map_of_mem hdup hx
  · rw [getServiceNames, hto]
    exact lookup_map_of_mem hdup hx
  · rw [List.map_map]
    refine List.map_congr_left fun y hy => ?_
    have hy := (hget ▸ hname y.1 : c₁.getService y.1 = _).symm.trans (hall x hx y hy)
    exact (KeyedList.mem_of_get hy).2
  · rw [List.map_map, List.map_map, hget]
    exact List.map_congr_left fun y hy => (hall x hx y hy).symm

theorem serviceFor_eq {serviceTag name : String} {category : Protocol.Category}
    (h : parseServiceTag serviceTag = some (name, category)) :
    c.serviceFor serviceTag = c.getService name := by
  rw [serviceFor, nameOf, h, Option.map_some, Option.bind_some]

theorem exists_of_forall₂ {α β : Type} {R : α → β → Prop} {l : List α} {l' : List β} {a : α}
    (h : List.Forall₂ R l l') (ha : a ∈ l) : ∃ b ∈ l', R a b := by
  induction h with
  | nil => cases ha
  | cons hab _ ih =>
    rcases List.mem_cons.mp ha with rfl | ha
    · exact ⟨_, List.mem_cons_self, hab⟩
    · obtain ⟨b, hb, hab⟩ := ih ha
      exact ⟨b, List.mem_cons_of_mem _ hb, hab⟩

theorem reachable_of_namesDistinct (h : init env filedir normal conf = .ok c)
    (hkeys : KeysOk conf) (hnames : NamesDistinct conf) : Reachable env normal conf c := by
  obtain ⟨made, hall, hnos, hget⟩ := init_made h
  have hmap : (entries conf "services").map (fun entry => nameOf entry.1) =
      (made.map Service.name).map some := by
    rw [List.map_map, ← List.forall₂_eq_eq_eq, List.forall₂_map_left_iff,
      List.forall₂_map_right_iff]
    refine hall.imp fun entry service hmade => ?_
    rw [nameOf, hmade.1, Option.map_some, Function.comp_apply]
  have hkeyed : KeyedList.Keyed Service.name made := by
    rw [NamesDistinct, hmap] at hnames
    exact hnames.of_map some
  have hfound : ∀ entry ∈ entries conf "services", ∃ service ∈ made,
      c.serviceFor entry.1 = some service ∧ Configures env normal entry service := by
    intro entry hentry
    obtain ⟨service, hmem, hmade⟩ := exists_of_forall₂ hall hentry
    refine ⟨service, hmem, ?_, hmade⟩
    rw [serviceFor_eq hmade.1, hget]
    exact KeyedList.get_of_mem hkeyed hmem
  refine ⟨fun entry hentry => ?_, fun e₁ h₁ e₂ h₂ hne hno => hne ?_, init_sets h hkeys⟩
  · obtain ⟨service, -, hservice⟩ := hfound entry hentry
    exact ⟨service, hservice⟩
  · obtain ⟨s₁, hs₁, hfound₁, hmade₁⟩ := hfound e₁ h₁
    obtain ⟨s₂, hs₂, hfound₂, hmade₂⟩ := hfound e₂ h₂
    rw [hfound₁, hfound₂, Option.map_some, Option.map_some] at hno
    have hs : s₁ = s₂ := List.inj_on_of_nodup_map hnos hs₁ hs₂ (Option.some.inj hno)
    have hname : nameOf e₁.1 = nameOf e₂.1 := by
      rw [nameOf, nameOf, hmade₁.1, hmade₂.1, hs]
    have he : e₁ = e₂ := List.inj_on_of_nodup_map hnames h₁ h₂ hname
    rw [he]

theorem namesDistinct_of_reachable (hkeys : KeysOk conf) (h : Reachable env normal conf c) :
    NamesDistinct conf := by
  have hkeys := hkeys "services" (by decide)
  refine List.Nodup.map_on (fun e₁ h₁ e₂ h₂ hname => ?_) (hkeys.of_map Prod.fst)
  refine List.inj_on_of_nodup_map hkeys h₁ h₂ (not_not.mp fun hne => ?_)
  refine h.numbers e₁ h₁ e₂ h₂ hne ?_
  rw [serviceFor, hname, serviceFor]

/-- An accepted configuration has all its services reachable exactly when no two
entries have one name. -/
theorem init_reachable_iff (env : AddrEnv) (filedir : String) (normal : ConfNormal)
    (conf : Option JsonType) (c : ConfServices) (hinit : init env filedir normal conf = .ok c)
    (hkeys : KeysOk conf) : Reachable env normal conf c ↔ NamesDistinct conf :=
  ⟨namesDistinct_of_reachable hkeys, reachable_of_namesDistinct hinit hkeys⟩

end Init

def twoServices (tags : String × String) (names : List String) : JsonType :=
  .dict [("services", .dict [
      (tags.1, .dict [("remotes", .list [.dict [("addr", .str "127.0.0.1:6610")]])]),
      (tags.2, .dict [("remotes", .list [])])]),
    ("services_sets", .dict [("both", .list (names.map .str))])]

def sunService (no : ℕ) (name : String) : Service := ⟨no, name, .kRedis, .kWeight, [], 0, 0⟩

theorem init_reachable_iff_twoServices :
    Reachable localEnv normalOf (some (twoServices ("moon|rapid", "sun|redis") ["sun", "moon"]))
      ⟨[localRemote 50], [("moon", moon 50), ("sun", sunService 1 "sun")],
        [("both", [sunService 1 "sun", moon 50])], [("both", ["sun", "moon"])]⟩ := by
  refine (init_reachable_iff localEnv "conf" normalOf _ _ (by rfl) ?_).mpr ?_
  · unfold KeysOk
    decide
  · unfold NamesDistinct
    decide

/-- The second entry of a name is accepted and its service is lost. -/
theorem sameName_lost :
    init localEnv "conf" normalOf (some (twoServices ("moon|rapid", "moon|redis") ["moon"])) =
        .ok ⟨[localRemote 50], [("moon", moon 50)], [("both", [moon 50])], [("both", ["moon"])]⟩ ∧
      KeysOk (some (twoServices ("moon|rapid", "moon|redis") ["moon"])) ∧
      ¬ Reachable localEnv normalOf (some (twoServices ("moon|rapid", "moon|redis") ["moon"]))
        ⟨[localRemote 50], [("moon", moon 50)], [("both", [moon 50])], [("both", ["moon"])]⟩ := by
  refine ⟨by rfl, ?_, fun h => ?_⟩
  · unfold KeysOk
    decide
  · obtain ⟨service, hservice, hconf⟩ := h.found ("moon|redis", .dict [("remotes", .list [])])
      (List.mem_cons_of_mem _ List.mem_cons_self)
    have hmoon : service = moon 50 := (Option.some.inj hservice).symm
    subst hmoon
    exact absurd hconf.1 (by decide)

end Magneto.Confs.ConfServices
