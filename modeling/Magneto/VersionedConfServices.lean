import Magneto.Confs
import Mathlib.Data.List.Induction

/-!
# Versions of the configuration of services

`VersionedConfServices` keeps its configurations in a `DelayDelPtr`: the one that
is replaced gets the next version and stays for a while, and is deleted by the
first change that comes later than that. `time` is an argument.
-/

namespace Magneto

/-- The map from versions to an object and the time at which it was replaced is a list. -/
structure DelayDelPtr (Obj : Type*) where
  delayDelTimeSec : ℤ
  toDelete : Bool
  obj : Option Obj
  version : ℕ
  delayDelPtrMap : List (ℕ × Obj × ℤ)
  deleted : List Obj

namespace DelayDelPtr

variable {Obj : Type*} {p : DelayDelPtr Obj} {hist : List (ℤ × Obj)} {now t : ℤ} {obj : Obj}
  {v : ℕ}

def kDefaultDelayDelTimeSec : ℤ := 60

def new (delayDelTimeSec : ℤ) (toDelete : Bool) : DelayDelPtr Obj :=
  ⟨delayDelTimeSec, toDelete, none, 0, [], []⟩

def expired (p : DelayDelPtr Obj) (now : ℤ) (e : ℕ × Obj × ℤ) : Bool :=
  p.delayDelTimeSec < now - e.2.2

/-- The loops of `Change` that delete what was replaced long ago. -/
def expire (p : DelayDelPtr Obj) (now : ℤ) : DelayDelPtr Obj :=
  { p with
    delayDelPtrMap := p.delayDelPtrMap.filter fun e => !p.expired now e
    deleted := if p.toDelete then
      p.deleted ++ (p.delayDelPtrMap.filter (p.expired now)).map fun e => e.2.1
      else p.deleted }

def change (p : DelayDelPtr Obj) (now : ℤ) (obj : Obj) : DelayDelPtr Obj :=
  let p := p.expire now
  match p.obj with
  | some old =>
    { p with
      delayDelPtrMap := p.delayDelPtrMap ++ [(p.version, old, now)]
      obj := some obj
      version := p.version + 1 }
  | none => { p with obj := some obj }

/-- `Get`; the version `size_t(-1)` is `none`. -/
def get (p : DelayDelPtr Obj) (version : Option ℕ) : Option Obj :=
  match version with
  | none => p.obj
  | some version =>
    if p.version = version then p.obj
    else (p.delayDelPtrMap.find? fun e => e.1 = version).map fun e => e.2.1

def destroy (p : DelayDelPtr Obj) : List Obj :=
  if p.toDelete then (p.delayDelPtrMap.map fun e => e.2.1) ++ p.obj.toList else []

def Replaced (hist : List (ℤ × Obj)) (v : ℕ) (obj : Obj) (t : ℤ) : Prop :=
  (hist[v]?).map Prod.snd = some obj ∧ (hist[v + 1]?).map Prod.fst = some t

def Within (delay : ℤ) (hist : List (ℤ × Obj)) (t : ℤ) : Prop :=
  ∀ c, hist.getLast? = some c → c.1 - t ≤ delay

structure Holds (delay : ℤ) (hist : List (ℤ × Obj)) (p : DelayDelPtr Obj) : Prop where
  time : p.delayDelTimeSec = delay
  toDelete : p.toDelete = true
  obj : p.obj = hist.getLast?.map Prod.snd
  version : p.version = hist.length - 1
  map : ∀ v obj t, (v, obj, t) ∈ p.delayDelPtrMap ↔ Replaced hist v obj t ∧ Within delay hist t
  settled : (p.deleted ++ p.destroy).Perm (hist.map Prod.snd)

theorem holds_new (delay : ℤ) : Holds delay [] (new delay true : DelayDelPtr Obj) :=
  ⟨rfl, rfl, rfl, rfl, fun v obj t => by simp [new, Replaced], List.Perm.nil⟩

theorem replaced_append {c : ℤ × Obj} :
    Replaced (hist ++ [c]) v obj t ↔ Replaced hist v obj t ∨
      v + 1 = hist.length ∧ hist.getLast?.map Prod.snd = some obj ∧ c.1 = t := by
  unfold Replaced
  obtain hlt | heq | hgt := Nat.lt_trichotomy (v + 1) hist.length
  · rw [List.getElem?_append_left hlt, List.getElem?_append_left (by omega)]
    refine (or_iff_left ?_).symm
    rintro ⟨heq, -⟩
    omega
  · rw [List.getElem?_append_left (by omega), List.getElem?_append_right (by omega), heq,
      Nat.sub_self, List.getElem?_eq_none (Nat.le_refl _), List.getLast?_eq_getElem?, ← heq,
      Nat.add_sub_cancel]
    simp
  · rw [List.getElem?_eq_none (l := hist ++ [c]) (i := v + 1) (by simp; omega),
      List.getElem?_eq_none (l := hist) (i := v + 1) (by omega)]
    refine iff_of_false (nomatch ·.2) ?_
    rintro (⟨-, hnone⟩ | ⟨heq, -⟩)
    · cases hnone
    · omega

theorem within_append {c : ℤ × Obj} {delay : ℤ} :
    Within delay (hist ++ [c]) t ↔ c.1 - t ≤ delay := by
  unfold Within
  rw [List.getLast?_concat]
  exact ⟨fun h => h c rfl, fun h d hd => Option.some.inj hd ▸ h⟩

namespace Holds

theorem mem_expire {delay : ℤ} (h : Holds delay hist p) (hnow : ∀ c ∈ hist, c.1 ≤ now) :
    (v, obj, t) ∈ (p.expire now).delayDelPtrMap ↔ Replaced hist v obj t ∧ now - t ≤ delay := by
  unfold expire expired
  rw [List.mem_filter, h.map, h.time, Bool.not_eq_true', decide_eq_false_iff_not, not_lt, and_assoc]
  dsimp only
  refine and_congr_right fun _ => and_iff_right_of_imp fun hle c hc => ?_
  have := hnow c (List.mem_of_getLast? hc)
  omega

theorem settled_expire {delay : ℤ} (h : Holds delay hist p) (now : ℤ) :
    ((p.expire now).deleted ++ ((p.expire now).delayDelPtrMap.map fun e => e.2.1) ++
      p.obj.toList).Perm (hist.map Prod.snd) := by
  have hold := h.settled
  unfold destroy at hold
  rw [if_pos h.toDelete] at hold
  unfold expire
  rw [if_pos h.toDelete]
  have hsplit := (List.filter_append_perm (p.expired now) p.delayDelPtrMap).map
    fun e => e.2.1
  rw [List.map_append] at hsplit
  rw [← List.append_assoc] at hold
  refine List.Perm.trans ?_ hold
  refine List.Perm.append_right _ ?_
  rw [List.append_assoc]
  exact hsplit.append_left _

theorem change_of_none (h : p.obj = none) :
    p.change now obj = { p.expire now with obj := some obj } := by
  have hexpire : (p.expire now).obj = none := h
  unfold DelayDelPtr.change
  dsimp only
  rw [hexpire]

theorem change_of_some {old : Obj} (h : p.obj = some old) :
    p.change now obj = { p.expire now with
      delayDelPtrMap := (p.expire now).delayDelPtrMap ++ [((p.expire now).version, old, now)]
      obj := some obj
      version := (p.expire now).version + 1 } := by
  have hexpire : (p.expire now).obj = some old := h
  unfold DelayDelPtr.change
  dsimp only
  rw [hexpire]

theorem change {delay : ℤ} (h : Holds delay hist p) (hdelay : 0 ≤ delay)
    (hnow : ∀ c ∈ hist, c.1 ≤ now) (obj : Obj) :
    Holds delay (hist ++ [(now, obj)]) (p.change now obj) := by
  have hsettled := h.settled_expire now
  have hobj := h.obj
  have htime : (p.expire now).delayDelTimeSec = delay := h.time
  have hdel : (p.expire now).toDelete = true := h.toDelete
  have hversion : (p.expire now).version = hist.length - 1 := h.version
  have hlen : (hist ++ [(now, obj)]).length - 1 = hist.length := by simp
  cases hlast : hist.getLast? with
  | none =>
    rw [hlast] at hobj
    rw [change_of_none hobj]
    rw [hobj] at hsettled
    obtain rfl := List.getLast?_eq_none_iff.mp hlast
    have hempty : (p.expire now).delayDelPtrMap = [] :=
      List.eq_nil_iff_forall_not_mem.mpr fun ⟨v, o, t⟩ hmem => by
        have := ((h.mem_expire hnow).mp hmem).1.1
        cases this
    refine ⟨htime, hdel, rfl, hversion, fun v o t => ?_, ?_⟩
    · refine iff_of_false (fun hmem => ?_) fun hrep => ?_
      · rw [hempty] at hmem
        cases hmem
      · have := hrep.1.2
        simp at this
    · rw [hempty] at hsettled
      unfold destroy
      rw [if_pos hdel, hempty]
      have hnil : (p.expire now).deleted = [] := List.append_eq_nil_iff.mp
        (List.append_eq_nil_iff.mp (List.Perm.eq_nil hsettled)).1 |>.1
      rw [hnil]
      exact List.Perm.refl _
  | some c =>
    rw [hlast] at hobj
    rw [change_of_some hobj]
    rw [hobj] at hsettled
    have hne : hist ≠ [] := by
      rintro rfl
      cases hlast
    have hpos := List.length_pos_iff.mpr hne
    refine ⟨htime, hdel, by rw [List.getLast?_concat]; rfl, ?_, fun v o t => ?_, ?_⟩
    · rw [hlen]
      change (p.expire now).version + 1 = hist.length
      omega
    · rw [replaced_append, within_append, hlast, or_and_right]
      change (v, o, t) ∈ (p.expire now).delayDelPtrMap ++ [((p.expire now).version, c.2, now)] ↔ _
      rw [List.mem_append, h.mem_expire hnow, List.mem_singleton, hversion]
      refine or_congr_right ⟨fun heq => ?_, ?_⟩
      · cases heq
        exact ⟨⟨by omega, rfl, rfl⟩, by simpa using hdelay⟩
      · rintro ⟨⟨hv, ho, rfl⟩, -⟩
        obtain rfl := Option.some.inj ho
        obtain rfl : v = hist.length - 1 := by omega
        rfl
    · unfold destroy
      rw [if_pos hdel, List.map_append, List.map_append]
      simpa [List.append_assoc] using hsettled.append_right [obj]

theorem get {delay : ℤ} (h : Holds delay hist p) :
    p.get (some v) = some obj ↔ (hist[v]?).map Prod.snd = some obj ∧
      ∀ t, (hist[v + 1]?).map Prod.fst = some t → Within delay hist t := by
  unfold DelayDelPtr.get
  dsimp only
  rw [h.version]
  split_ifs with hv
  · -- the version that is not replaced yet
    have hnone : hist[v + 1]? = none := List.getElem?_eq_none (by omega)
    rw [h.obj, List.getLast?_eq_getElem?, hv, hnone]
    exact ⟨fun ho => ⟨ho, fun t ht => nomatch ht⟩, And.left⟩
  · rw [Option.map_eq_some_iff]
    constructor
    · rintro ⟨⟨w, o, t⟩, hfind, rfl⟩
      obtain rfl : w = v := by simpa using List.find?_some hfind
      obtain ⟨hrep, hwithin⟩ := (h.map w o t).mp (List.mem_of_find?_eq_some hfind)
      refine ⟨hrep.1, fun t' ht' => ?_⟩
      rw [hrep.2] at ht'
      exact Option.some.inj ht' ▸ hwithin
    · rintro ⟨ho, hwithin⟩
      obtain ⟨c, hc, rfl⟩ := Option.map_eq_some_iff.mp ho
      have hlt : v + 1 < hist.length := by
        have := (List.getElem?_eq_some_iff.mp hc).1
        omega
      have ht : (hist[v + 1]?).map Prod.fst = some hist[v + 1].1 := by
        rw [List.getElem?_eq_getElem hlt, Option.map_some]
      have hmem := (h.map v c.2 hist[v + 1].1).mpr ⟨⟨ho, ht⟩, hwithin _ ht⟩
      cases hfind : p.delayDelPtrMap.find? fun e => e.1 = v with
      | none => exact absurd rfl (of_decide_eq_false
          (Bool.eq_false_iff.mpr (List.find?_eq_none.mp hfind _ hmem)))
      | some e =>
        obtain ⟨w, o, t⟩ := e
        obtain rfl : w = v := by simpa using List.find?_some hfind
        obtain ⟨hrep, -⟩ := (h.map w o t).mp (List.mem_of_find?_eq_some hfind)
        exact ⟨_, rfl, (Option.some.inj (ho.symm.trans hrep.1)).symm⟩

end Holds

end DelayDelPtr

namespace Confs

abbrev VersionedConfServices := DelayDelPtr ConfServices

namespace VersionedConfServices

variable (env : AddrEnv) (filedir : String) (normal : ConfNormal)

def new : VersionedConfServices := DelayDelPtr.new DelayDelPtr.kDefaultDelayDelTimeSec true

/-- `Load`; `conf` is what `CreateConf` returns at the time `now`. -/
def load (p : VersionedConfServices) (now : ℤ) (conf : Option JsonType) :
    Bool × VersionedConfServices :=
  match ConfServices.init env filedir normal conf with
  | .ok c => (true, p.change now c)
  | .error _ => (false, p)

def getConf (p : VersionedConfServices) (version : Option ℕ) : Option ConfServices :=
  p.get version

def loads (ls : List (ℤ × Option JsonType)) : VersionedConfServices :=
  ls.foldl (fun p l => (load env filedir normal p l.1 l.2).2) new

def loaded (ls : List (ℤ × Option JsonType)) : List (ℤ × ConfServices) :=
  ls.filterMap fun l => (ConfServices.init env filedir normal l.2).toOption.map (l.1, ·)

theorem holds_loads {ls : List (ℤ × Option JsonType)} (hmono : ls.Pairwise fun l l' => l.1 ≤ l'.1) :
    DelayDelPtr.Holds 60 (loaded env filedir normal ls) (loads env filedir normal ls) := by
  induction ls using List.reverseRecOn with
  | nil => exact DelayDelPtr.holds_new 60
  | append_singleton ls l ih =>
    obtain ⟨hmono, -, hlast⟩ := List.pairwise_append.mp hmono
    have hold := ih hmono
    have hloads : loads env filedir normal (ls ++ [l]) =
        (load env filedir normal (loads env filedir normal ls) l.1 l.2).2 := by
      rw [loads, List.foldl_append]
      rfl
    have hloaded : loaded env filedir normal (ls ++ [l]) = loaded env filedir normal ls ++
        ((ConfServices.init env filedir normal l.2).toOption.map (l.1, ·)).toList := by
      rw [loaded, List.filterMap_append]
      refine congrArg (loaded env filedir normal ls ++ ·) ?_
      rw [List.filterMap_cons, List.filterMap_nil]
      cases (ConfServices.init env filedir normal l.2).toOption <;> rfl
    rw [hloads, hloaded]
    unfold load
    cases ConfServices.init env filedir normal l.2 with
    | error e => exact (List.append_nil _).symm ▸ hold
    | ok c =>
      refine hold.change (by decide) (fun d hd => ?_) c
      obtain ⟨l', hl', hd'⟩ := List.mem_filterMap.mp hd
      obtain ⟨c', -, rfl⟩ := Option.map_eq_some_iff.mp hd'
      exact hlast l' hl' l (List.mem_singleton_self l)

/-- `GetConf` of a version returns the configuration that was loaded as that version until a load
comes more than a minute after it was replaced; a load that fails changes nothing. Every
configuration that was loaded is deleted once, by a later load or by the destructor. -/
theorem loads_getConf {ls : List (ℤ × Option JsonType)}
    (hmono : ls.Pairwise fun l l' => l.1 ≤ l'.1) :
    getConf (loads env filedir normal ls) none =
        (loaded env filedir normal ls).getLast?.map Prod.snd ∧
      (∀ v conf, getConf (loads env filedir normal ls) (some v) = some conf ↔
        ((loaded env filedir normal ls)[v]?).map Prod.snd = some conf ∧
          ∀ t, ((loaded env filedir normal ls)[v + 1]?).map Prod.fst = some t →
            ∀ c, (loaded env filedir normal ls).getLast? = some c → c.1 - t ≤ 60) ∧
      ((loads env filedir normal ls).deleted ++ (loads env filedir normal ls).destroy).Perm
        ((loaded env filedir normal ls).map Prod.snd) := by
  have h := holds_loads env filedir normal hmono
  exact ⟨h.obj, fun v conf => h.get, h.settled⟩

def noAddrs : AddrEnv := ⟨fun _ => 0, fun _ => 0⟩

def plainConf : ConfNormal := ⟨⟨50, 50, 50⟩, 1, 1, 60, 10, 60, [], 1000, 1000, 65536, false, 4, 1⟩

def noServices : JsonType := .dict [("services", .dict []), ("services_sets", .dict [])]

/-- The file is missing once; of three versions the first one has been deleted. -/
def reloads : List (ℤ × Option JsonType) :=
  [(0, some noServices), (5, none), (10, some noServices), (100, some noServices)]

theorem loads_getConf_reloads :
    (loaded noAddrs "conf" plainConf reloads).map Prod.fst = [0, 10, 100] ∧
      getConf (loads noAddrs "conf" plainConf reloads) (some 0) = none ∧
      getConf (loads noAddrs "conf" plainConf reloads) (some 1) = some .new := by
  have hloaded : loaded noAddrs "conf" plainConf reloads = [(0, .new), (10, .new), (100, .new)] :=
    rfl
  have hmono : reloads.Pairwise fun l l' => l.1 ≤ l'.1 := by decide
  obtain ⟨-, hget, -⟩ := loads_getConf noAddrs "conf" plainConf hmono
  rw [hloaded] at hget ⊢
  refine ⟨rfl, Option.eq_none_iff_forall_ne_some.mpr fun conf hconf => ?_, (hget 1 _).mpr ⟨rfl, ?_⟩⟩
  · have := ((hget 0 conf).mp hconf).2 10 rfl (100, .new) rfl
    omega
  · rintro t ⟨⟩ c ⟨⟩
    decide

end VersionedConfServices

end Confs

end Magneto
